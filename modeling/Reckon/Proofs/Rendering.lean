import Mathlib.Data.List.Basic
import Std.Data.String.ToNat
import Reckon.Diagnostic.Basic

/-!
# Rendered diagnostics can be told apart

The text of a diagnostic is flat: words, an index and free texts one after the other. This file shows
that nothing is lost in it as long as the free texts keep to one line. The lines can be told apart at
the line ends, and within a line the first delimiter ends a part that does not contain it. What follows
may look like anything.

* `delimited_inj`: parts that end at a delimiter.
* `Node.render_inj`, `Diagnostic.place_inj`, `Diagnostic.headline_inj`: one line at a time.
* `Diagnostic.SingleLine`: no line end in the free texts, and so none in any line
  (`SingleLine.notMem_line`).
* `render_unambiguous`: diagnostics with the same text are the same.
-/

namespace Reckon

/-! ### Delimiters -/

/-- Two texts are the same up to a delimiter that neither of them contains before, and after it. -/
theorem delimited_inj {delimiter : Char} {before after first last : List Char}
    (hbefore : delimiter ∉ before) (hfirst : delimiter ∉ first)
    (h : before ++ delimiter :: after = first ++ delimiter :: last) :
    before = first ∧ after = last := by
  induction before generalizing first with
  | nil =>
    cases first with
    | nil => exact ⟨rfl, (List.cons.inj h).2⟩
    | cons c first =>
      have hc : delimiter = c := (List.cons.inj h).1
      exact absurd (hc ▸ List.mem_cons_self) hfirst
  | cons b before ih =>
    cases first with
    | nil =>
      have hb : b = delimiter := (List.cons.inj h).1
      exact absurd (hb ▸ List.mem_cons_self) hbefore
    | cons c first =>
      obtain ⟨rfl, htail⟩ := List.cons.inj h
      obtain ⟨rfl, rfl⟩ := ih (List.not_mem_of_not_mem_cons hbefore)
        (List.not_mem_of_not_mem_cons hfirst) htail
      exact ⟨rfl, rfl⟩

/-! ### Words -/

theorem Severity.word_inj {a b : Severity} (h : a.word = b.word) : a = b := by
  cases a <;> cases b <;> simp_all [word]

theorem NodeKind.word_inj {a b : NodeKind} (h : a.word = b.word) : a = b := by
  cases a <;> cases b <;> simp_all [word]

theorem Code.text_inj {a b : Code} (h : a.text = b.text) : a = b := by
  have hcode := congrArg ofText? h
  simpa using hcode

/-- The characters of an index are digits. -/
theorem isDigit_of_mem_repr {c : Char} {n : ℕ} (h : c ∈ n.repr.toList) : c.isDigit = true := by
  rw [Nat.toList_repr] at h
  exact Nat.isDigit_of_mem_toDigits (by decide) (by decide) h

namespace Node

variable {a b : Node}

theorem toList_render (node : Node) :
    node.render.toList = node.kind.word.toList ++ ' ' :: '#' :: node.index.repr.toList := by
  rw [render]
  simp [String.toList_append, toString]

theorem render_inj (h : a.render = b.render) : a = b := by
  have hlist := congrArg String.toList h
  rw [toList_render, toList_render] at hlist
  have hspace : ∀ kind : NodeKind, ' ' ∉ kind.word.toList := by
    intro kind
    cases kind <;> decide
  obtain ⟨hword, hrest⟩ := delimited_inj (hspace a.kind) (hspace b.kind) hlist
  have hkind : a.kind = b.kind := NodeKind.word_inj (String.toList_injective hword)
  have hindex : a.index = b.index := Nat.repr_injective (String.toList_injective (List.cons.inj hrest).2)
  cases a
  cases b
  simp_all

/-- A character that is in none of the words, no digit and neither of the marks between them. -/
theorem notMem_render {c : Char} (hwords : ∀ kind : NodeKind, c ∉ kind.word.toList)
    (hmarks : c ∉ [' ', '#']) (hdigit : c.isDigit = false) (node : Node) :
    c ∉ node.render.toList := by
  have hindex : c ∉ node.index.repr.toList := by
    intro hmem
    rw [isDigit_of_mem_repr hmem] at hdigit
    cases hdigit
  rw [toList_render]
  simp_all

theorem dot_notMem_render (node : Node) : '.' ∉ node.render.toList := by
  apply notMem_render _ (by decide) (by decide)
  intro kind
  cases kind <;> decide

theorem newline_notMem_render (node : Node) : '\n' ∉ node.render.toList := by
  apply notMem_render _ (by decide) (by decide)
  intro kind
  cases kind <;> decide

end Node

/-! ### Lines -/

namespace Diagnostic

variable {diagnostic other : Diagnostic}

theorem toList_place_of_none (h : diagnostic.property = none) :
    diagnostic.place.toList = diagnostic.node.render.toList := by
  rw [place, h]

theorem toList_place_of_some {property : String} (h : diagnostic.property = some property) :
    diagnostic.place.toList = diagnostic.node.render.toList ++ '.' :: property.toList := by
  rw [place, h]
  simp [String.toList_append, toString]

/-- A place tells the node and the property, also whether there is one. -/
theorem place_inj (h : diagnostic.place = other.place) :
    diagnostic.node = other.node ∧ diagnostic.property = other.property := by
  have hdot := diagnostic.node.dot_notMem_render
  have hdot' := other.node.dot_notMem_render
  have hlist := congrArg String.toList h
  cases hp : diagnostic.property with
  | none =>
    rw [toList_place_of_none hp] at hlist
    cases hq : other.property with
    | none =>
      rw [toList_place_of_none hq] at hlist
      exact ⟨Node.render_inj (String.toList_injective hlist), rfl⟩
    | some q =>
      rw [toList_place_of_some hq] at hlist
      rw [hlist] at hdot
      simp at hdot
  | some p =>
    rw [toList_place_of_some hp] at hlist
    cases hq : other.property with
    | none =>
      rw [toList_place_of_none hq] at hlist
      rw [← hlist] at hdot'
      simp at hdot'
    | some q =>
      rw [toList_place_of_some hq] at hlist
      obtain ⟨hnode, hproperty⟩ := delimited_inj hdot hdot' hlist
      exact ⟨Node.render_inj (String.toList_injective hnode),
        congrArg some (String.toList_injective hproperty)⟩

/-- The characters of the first line. -/
def headline (diagnostic : Diagnostic) : List Char :=
  diagnostic.severity.word.toList ++ ' ' :: '[' :: (diagnostic.code.text.toList ++
    ']' :: ':' :: ' ' :: diagnostic.message.toList)

/-- The first line tells the severity, the code and the message. -/
theorem headline_inj (h : diagnostic.headline = other.headline) :
    diagnostic.severity = other.severity ∧ diagnostic.code = other.code ∧
      diagnostic.message = other.message := by
  have hspace : ∀ severity : Severity, ' ' ∉ severity.word.toList := by
    intro severity
    cases severity <;> decide
  have hbracket : ∀ code : Code, ']' ∉ code.text.toList := by
    intro code
    cases code <;> decide
  obtain ⟨hword, hrest⟩ := delimited_inj (hspace _) (hspace _) h
  obtain ⟨htext, hmessage⟩ := delimited_inj (hbracket _) (hbracket _) (List.cons.inj hrest).2
  refine ⟨Severity.word_inj (String.toList_injective hword),
    Code.text_inj (String.toList_injective htext), String.toList_injective ?_⟩
  simpa using hmessage

/-- The lines in characters. -/
theorem map_toList_lines (diagnostic : Diagnostic) :
    diagnostic.lines.map String.toList =
      diagnostic.headline :: ("  --> ".toList ++ diagnostic.place.toList) ::
        diagnostic.notes.map fun note => "  = note: ".toList ++ note.toList := by
  simp [lines, headline, String.toList_append, toString, Function.comp_def]

/-- The texts of the diagnostic that can be anything keep to one line. -/
structure SingleLine (diagnostic : Diagnostic) : Prop where
  message : '\n' ∉ diagnostic.message.toList
  property : ∀ property ∈ diagnostic.property, '\n' ∉ property.toList
  notes : ∀ note ∈ diagnostic.notes, '\n' ∉ note.toList

theorem SingleLine.notMem_headline (h : diagnostic.SingleLine) : '\n' ∉ diagnostic.headline := by
  have hword : '\n' ∉ diagnostic.severity.word.toList := by
    cases diagnostic.severity <;> decide
  have htext : '\n' ∉ diagnostic.code.text.toList := by
    cases diagnostic.code <;> decide
  simp [headline, hword, htext, h.message]

theorem SingleLine.notMem_place (h : diagnostic.SingleLine) : '\n' ∉ diagnostic.place.toList := by
  have hnode := diagnostic.node.newline_notMem_render
  cases hp : diagnostic.property with
  | none => rwa [toList_place_of_none hp]
  | some property =>
    rw [toList_place_of_some hp]
    simp [hnode, h.property property hp]

/-- There is no line end within a line. -/
theorem SingleLine.notMem_line (h : diagnostic.SingleLine) :
    ∀ line ∈ diagnostic.lines.map String.toList, '\n' ∉ line := by
  rw [map_toList_lines]
  intro line hline
  rcases List.mem_cons.1 hline with rfl | hline
  · exact h.notMem_headline
  rcases List.mem_cons.1 hline with rfl | hline
  · simpa using h.notMem_place
  · obtain ⟨note, hnote, rfl⟩ := List.mem_map.1 hline
    simpa using h.notes note hnote

/-- The lines can be told apart at the line ends. -/
theorem SingleLine.splitOn_render (h : diagnostic.SingleLine) :
    diagnostic.render.toList.splitOn '\n' = diagnostic.lines.map String.toList := by
  rw [render, String.toList_intercalate]
  exact List.splitOn_intercalate '\n' h.notMem_line (by simp [lines])

/-- **Rendered diagnostics are unambiguous.** If two diagnostics keep to one line in their messages,
properties and notes, and have the same text, then they are the same: in code, severity and message, in
the kind and index of the node, in the property and whether there is one, and in the list of notes. -/
theorem render_unambiguous (hd : diagnostic.SingleLine) (ho : other.SingleLine)
    (h : diagnostic.render = other.render) : diagnostic = other := by
  have hlines : diagnostic.lines.map String.toList = other.lines.map String.toList := by
    rw [← hd.splitOn_render, ← ho.splitOn_render, h]
  rw [map_toList_lines, map_toList_lines] at hlines
  obtain ⟨hheadline, hrest⟩ := List.cons.inj hlines
  obtain ⟨hplace, hnotes⟩ := List.cons.inj hrest
  obtain ⟨hseverity, hcode, hmessage⟩ := headline_inj hheadline
  have hsame : diagnostic.place = other.place :=
    String.toList_injective (List.append_cancel_left hplace)
  obtain ⟨hnode, hproperty⟩ := place_inj hsame
  have hnote : Function.Injective fun note : String => "  = note: ".toList ++ note.toList := by
    intro a b hab
    exact String.toList_injective (List.append_cancel_left hab)
  have hall : diagnostic.notes = other.notes := hnote.list_map hnotes
  cases diagnostic
  cases other
  simp_all

/-- The message looks like a headline and a place, the property is empty, and the notes are a note's
beginning and nothing. -/
def misleading : Diagnostic :=
  Diagnostic.warning .repeatedGreeting ⟨.greeting, 10⟩
    |>.withMessage "error [E2002]:   --> expression #1.right"
    |>.withProperty ""
    |>.withNote "  = note: "
    |>.withNote ""

/-- The same diagnostic, put together in another order. -/
def misleadingAgain : Diagnostic :=
  Diagnostic.warning .repeatedGreeting ⟨.greeting, 10⟩
    |>.withNote "  = note: "
    |>.withProperty ""
    |>.withNote ""
    |>.withMessage "error [E2002]:   --> expression #1.right"

theorem misleading_unambiguous :
    misleading.SingleLine ∧ misleadingAgain.SingleLine ∧
      misleading.render = misleadingAgain.render ∧ misleading = misleadingAgain := by
  have hd : misleading.SingleLine := ⟨by decide, by decide, by decide⟩
  have ho : misleadingAgain.SingleLine := ⟨by decide, by decide, by decide⟩
  exact ⟨hd, ho, rfl, render_unambiguous hd ho rfl⟩

/-- A line end in a note can pass for two notes. -/
example :
    ((Diagnostic.error .zeroDivisor ⟨.expr, 0⟩).withNote "a\n  = note: b").render =
      (((Diagnostic.error .zeroDivisor ⟨.expr, 0⟩).withNote "a").withNote "b").render := by
  decide

end Diagnostic

end Reckon
