import Reckon.Document.Basic
import Reckon.Eval.Error

/-!
# The call stack

Each call of a function that is being evaluated has a frame. The number of frames is limited: a call
beyond the limit is refused, so that a runaway recursion ends with an error.

* `CallStack.push`: opens a frame, or refuses it.
* `CallStack.room`: how many more frames can be opened.
-/

namespace Reckon

/-- A call that is being evaluated. -/
structure Frame where
  definition : DefId
  call : ExprId
deriving DecidableEq, Repr

/-- The calls that are being evaluated, the innermost one last. -/
structure CallStack where
  frames : Array Frame := #[]
  /-- The greatest number of frames. -/
  limit : Nat
deriving DecidableEq, Repr

namespace CallStack

/-- A stack without frames. -/
def new (limit : Nat) : CallStack := { limit }

/-- The number of open frames. -/
def depth (stack : CallStack) : Nat :=
  stack.frames.size

/-- Whether no frame is open. -/
def isEmpty (stack : CallStack) : Bool :=
  stack.frames.isEmpty

/-- The number of frames that can still be opened. -/
def room (stack : CallStack) : Nat :=
  stack.limit - stack.depth

/-- Opens a frame. If the stack is full, the call is an error under the name of the function, which
has to be in the document for that. -/
def push (doc : Document) (frame : Frame) : EStateM Stop CallStack Unit := fun stack =>
  if stack.depth < stack.limit then
    .ok () { stack with frames := stack.frames.push frame }
  else
    match doc.definitionText frame.definition with
    | .ok name => .error (.error (.recursionLimit name frame.call stack.limit)) stack
    | .error fault => .error (.fault fault) stack

/-- Closes the innermost frame. -/
def pop (stack : CallStack) : CallStack :=
  { stack with frames := stack.frames.pop }

theorem push_of_lt {stack : CallStack} (doc : Document) (frame : Frame)
    (h : stack.depth < stack.limit) :
    push doc frame stack = .ok () { stack with frames := stack.frames.push frame } := by
  simp [push, h]

/-- A full stack refuses a frame under the name of the function. -/
theorem push_of_le {stack : CallStack} {doc : Document} {frame : Frame} {definition : Definition}
    (hd : doc.definitions[frame.definition.index]? = some definition)
    (h : stack.limit ≤ stack.depth) :
    push doc frame stack =
      .error (.error (.recursionLimit (doc.text definition.name) frame.call stack.limit)) stack := by
  rw [push, if_neg (Nat.not_lt.2 h), Document.definitionText, Document.definition_eq_ok.2 hd]
  rfl

/-- A frame is opened only if there is room, and nothing else changes. -/
theorem push_eq_ok {stack next : CallStack} {doc : Document} {frame : Frame} :
    push doc frame stack = .ok () next ↔
      stack.depth < stack.limit ∧ next = { stack with frames := stack.frames.push frame } := by
  constructor
  · intro h
    unfold push at h
    split at h
    · rename_i hlt
      cases h
      exact ⟨hlt, rfl⟩
    · split at h <;> cases h
  · rintro ⟨hlt, rfl⟩
    exact push_of_lt doc frame hlt

/-- Closing the frame just opened restores the stack. -/
theorem pop_of_push {stack next : CallStack} {doc : Document} {frame : Frame}
    (h : push doc frame stack = .ok () next) : next.pop = stack := by
  obtain ⟨-, rfl⟩ := push_eq_ok.1 h
  simp [pop]

theorem depth_of_push {stack next : CallStack} {doc : Document} {frame : Frame}
    (h : push doc frame stack = .ok () next) :
    stack.depth < stack.limit ∧ next.depth = stack.depth + 1 := by
  obtain ⟨hlt, rfl⟩ := push_eq_ok.1 h
  exact ⟨hlt, by simp [depth]⟩

theorem limit_of_push {stack next : CallStack} {doc : Document} {frame : Frame}
    (h : push doc frame stack = .ok () next) : next.limit = stack.limit := by
  obtain ⟨-, rfl⟩ := push_eq_ok.1 h
  rfl

/-- An open frame takes one place of the room. -/
theorem room_of_push {stack next : CallStack} {doc : Document} {frame : Frame}
    (h : push doc frame stack = .ok () next) : stack.room = next.room + 1 := by
  have hdepth := depth_of_push h
  have hlimit := limit_of_push h
  simp only [room]
  omega

/-- A refused frame leaves the stack as it was. -/
theorem eq_of_push_eq_error {stack next : CallStack} {doc : Document} {frame : Frame} {stop : Stop}
    (h : push doc frame stack = .error stop next) : next = stack := by
  unfold push at h
  split at h
  · cases h
  · split at h <;> cases h <;> rfl

end CallStack

end Reckon
