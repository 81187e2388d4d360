import Reckon.Proofs.Folding
import Reckon.Proofs.Simulation

/-!
# Sharing is invisible

Expressions name their parts by index, so that one expression may be a part of many others. This file
takes an expression apart into a tree, in which nothing is shared, and shows that the tree alone
decides: two expressions with the same tree fold to the same, and they are evaluated alike. Only the
call that an error points to can be another one.

* `Tree`, `Document.tree`: the tree of an expression.
* `Document.Unfolds`: an expression has a tree, stated by its parts. In a well-formed document every
  expression has one (`WellFormed.exists_tree`).
* `Tree.fold`, `Unfolds.folds`: the fold of an expression is that of its tree.
* `Simulation.sharing`: expressions with the same tree meet the same. Bodies of functions have the same
  tree as themselves.
* `sharing_invisible`: folding and evaluation.
-/

namespace Reckon

/-- An expression with its parts in place. -/
inductive Tree where
  | binary (op : Operator) (left right : Tree)
  | number (value : Binary64)
  | call (target : Option CallTarget) (args : List Tree)
  | error

/-- The fold of a tree. What is called, and with which arguments, does not matter. -/
def Tree.fold : Tree → Value
  | .binary op left right => Value.fold op left.fold right.fold
  | .number value => some value
  | .call .. | .error => none

/-- The error as it would be at another call. -/
def EvalError.withCall : EvalError → ExprId → EvalError
  | .arityMismatch name definition _ expected got, call =>
    .arityMismatch name definition call expected got
  | .unlinkedReference _, call => .unlinkedReference call
  | .recursionLimit name _ depth, call => .recursionLimit name call depth

/-! ### Lists of actions -/

section Lists

variable {α β : Type} {f : α → Except Fault β} {list : List α}

theorem forall₂_of_mapM {results : List β} (h : list.mapM f = .ok results) :
    List.Forall₂ (fun a b => f a = .ok b) list results := by
  induction list generalizing results with
  | nil =>
    cases h
    exact .nil
  | cons a list ih =>
    rw [List.mapM_cons] at h
    obtain ⟨b, hb, h⟩ := bind_eq_ok.1 h
    obtain ⟨bs, hbs, h⟩ := bind_eq_ok.1 h
    cases h
    exact .cons hb (ih hbs)

theorem exists_mapM (h : ∀ a ∈ list, ∃ b, f a = .ok b) : ∃ results, list.mapM f = .ok results := by
  induction list with
  | nil => exact ⟨[], rfl⟩
  | cons a list ih =>
    obtain ⟨b, hb⟩ := h a List.mem_cons_self
    obtain ⟨bs, hbs⟩ := ih fun x hx => h x (List.mem_cons_of_mem a hx)
    refine ⟨b :: bs, ?_⟩
    rw [List.mapM_cons, hb, hbs]
    rfl

end Lists

namespace Document

variable {doc : Document} {id a b : ExprId} {t : Tree} {height : ℕ}

/-! ### The tree of an expression -/

/-- Takes an expression apart that nests at most `height` levels deep. -/
def unfold (doc : Document) : (height : ℕ) → ExprId → Except Fault Tree
  | 0, _ => .error .endless
  | height + 1, id => do
    match ← doc.expr id with
    | .binary op left right =>
      let left ← doc.unfold height left
      let right ← doc.unfold height right
      return .binary op left right
    | .number value => return .number value
    | .call target args => return .call target (← args.mapM (doc.unfold height))
    | .error => return .error

/-- The tree of an expression. -/
def tree (doc : Document) (id : ExprId) : Except Fault Tree :=
  doc.unfold doc.height id

/-- The tree of an expression, by those of its parts. -/
inductive Unfolds (doc : Document) : ExprId → Tree → Prop
  | binary {id left right : ExprId} {op : Operator} {l r : Tree}
      (h : doc.exprs[id.index]? = some (.binary op left right)) (hleft : doc.Unfolds left l)
      (hright : doc.Unfolds right r) : doc.Unfolds id (.binary op l r)
  | number {id : ExprId} {value : Binary64} (h : doc.exprs[id.index]? = some (.number value)) :
      doc.Unfolds id (.number value)
  | call {id : ExprId} {target : Option CallTarget} {args : List ExprId} {trees : List Tree}
      (h : doc.exprs[id.index]? = some (.call target args))
      (hargs : List.Forall₂ doc.Unfolds args trees) : doc.Unfolds id (.call target trees)
  | error {id : ExprId} (h : doc.exprs[id.index]? = some .error) : doc.Unfolds id .error

theorem Unfolds.of_unfold (h : doc.unfold height id = .ok t) : doc.Unfolds id t := by
  induction height generalizing id t with
  | zero => cases h
  | succ height ih =>
    rw [unfold] at h
    obtain ⟨expr, hexpr, h⟩ := bind_eq_ok.1 h
    rw [expr_eq_ok] at hexpr
    cases expr with
    | binary op left right =>
      obtain ⟨l, hl, h⟩ := bind_eq_ok.1 h
      obtain ⟨r, hr, h⟩ := bind_eq_ok.1 h
      cases h
      exact .binary hexpr (ih hl) (ih hr)
    | number value =>
      cases h
      exact .number hexpr
    | call target args =>
      obtain ⟨trees, htrees, h⟩ := bind_eq_ok.1 h
      cases h
      exact .call hexpr ((forall₂_of_mapM htrees).imp fun _ _ harg => ih harg)
    | error =>
      cases h
      exact .error hexpr

/-- An expression nests no deeper than its rank. -/
theorem WellFormed.exists_unfold (h : doc.WellFormed) (hid : id.index < doc.exprs.size)
    (hrank : doc.rank id < height) : ∃ tree, doc.unfold height id = .ok tree := by
  induction height generalizing id with
  | zero => exact absurd hrank (Nat.not_lt_zero _)
  | succ height ih =>
    have hpart : ∀ part, doc.Child id part → ∃ tree, doc.unfold height part = .ok tree := by
      intro part hchild
      have hlt := rank_lt_of_child hchild (h.acyclic id)
      exact ih (h.child_lt hchild) (by omega)
    have hexpr : doc.exprs[id.index]? = some doc.exprs[id.index] := Array.getElem?_eq_getElem hid
    rw [unfold, expr_eq_ok.2 hexpr]
    cases hkind : doc.exprs[id.index] with
    | binary op left right =>
      rw [hkind] at hexpr
      obtain ⟨l, hl⟩ := hpart left (child_left hexpr)
      obtain ⟨r, hr⟩ := hpart right (child_right hexpr)
      exact ⟨.binary op l r, bind_eq_ok.2 ⟨_, rfl, bind_eq_ok.2 ⟨l, hl, bind_eq_ok.2 ⟨r, hr, rfl⟩⟩⟩⟩
    | number value => exact ⟨.number value, rfl⟩
    | call target args =>
      rw [hkind] at hexpr
      obtain ⟨trees, htrees⟩ := exists_mapM fun arg harg => hpart arg ⟨_, hexpr, harg⟩
      exact ⟨.call target trees, bind_eq_ok.2 ⟨_, rfl, bind_eq_ok.2 ⟨trees, htrees, rfl⟩⟩⟩
    | error => exact ⟨.error, rfl⟩

theorem WellFormed.exists_tree (h : doc.WellFormed) (hid : id.index < doc.exprs.size) :
    ∃ tree, doc.tree id = .ok tree :=
  h.exists_unfold hid (doc.rank_lt_height id)

/-! ### Folding -/

/-- The tree of an expression decides its fold. -/
theorem Unfolds.folds : ∀ {id : ExprId} {t : Tree}, doc.Unfolds id t → doc.Folds id t.fold
  | _, .binary .., .binary h hleft hright => .binary h hleft.folds hright.folds
  | _, .number _, .number h => .number h
  | _, .call .., .call h _ => .call h
  | _, .error, .error h => .error h

end Document

/-! ### Evaluation -/

namespace Simulation

variable {doc : Document} {a b : ExprId} {env : Environment}

/-- Expressions with the same tree in the same environments. -/
def sharing (doc : Document) : Simulation where
  env := fun env env' => env' = env ∧ env.Known doc
  expr := fun a b => ∃ t, doc.Unfolds a t ∧ doc.Unfolds b t
  error := fun error error' => ∃ call, error' = error.withCall call
  excused := fun _ => False

theorem forall₂_sharing {args args' : List ExprId} {trees : List Tree}
    (h : List.Forall₂ doc.Unfolds args trees) (h' : List.Forall₂ doc.Unfolds args' trees) :
    List.Forall₂ (sharing doc).expr args args' := by
  induction h generalizing args' with
  | nil =>
    cases h'
    exact .nil
  | cons harg _ ih =>
    cases h' with
    | cons harg' hrest => exact .cons ⟨_, harg, harg'⟩ (ih hrest)

/-- Calls with the same target find the same, and enter the same body. -/
theorem meets_call_sharing {target : Option CallTarget} {args args' : List ExprId}
    (h : doc.WellFormed) (hk : env.Known doc) (ha : doc.exprs[a.index]? = some (.call target args))
    (hb : doc.exprs[b.index]? = some (.call target args'))
    (hargs : List.Forall₂ (sharing doc).expr args args') (limit : ℕ) :
    (sharing doc).Meets doc doc limit limit env env a b := by
  have herror : (sharing doc).error (.unlinkedReference a) (.unlinkedReference b) := ⟨b, rfl⟩
  apply meets_of_call hk ha hb Option.map_id'.symm (fun _ _ => rfl) herror
  intro function definition hcalls hcalls'
  have hroot : doc.IsRoot definition.body :=
    Or.inl ⟨definition, Array.mem_of_getElem? hcalls.definition_eq, rfl⟩
  -- the two bodies are one expression, so that a tree of it will do for both
  obtain ⟨body, hbody⟩ := h.exists_tree (h.root_lt hroot)
  have hunfolds := Document.Unfolds.of_unfold hbody
  refine .function hcalls (hcalls' hcalls.definition_eq) hargs rfl ⟨body, hunfolds, hunfolds⟩
    (fun values => ⟨rfl, hk.bindAll _ values⟩) ?_ (Or.inr ⟨Nat.le_refl limit, b, rfl⟩)
  intro _
  rw [hargs.length_eq]
  exact ⟨b, rfl⟩

theorem sound_sharing (h : doc.WellFormed) (limit : ℕ) :
    (sharing doc).Sound doc doc limit limit where
  acyclic := h.acyclic
  acyclic' := h.acyclic
  limit_le := Nat.le_refl limit
  meets := by
    intro env env' a b henv hexpr
    obtain ⟨rfl, hk⟩ := henv
    obtain ⟨t, ha, hb⟩ := hexpr
    cases ha with
    | number ha =>
      cases hb with
      | number hb => exact .number _ ha hb
    | error ha =>
      cases hb with
      | error hb => exact .unreadable ha hb
    | binary ha hl hr =>
      cases hb with
      | binary hb hl' hr' => exact .binary _ ha hb ⟨_, hl, hl'⟩ ⟨_, hr, hr'⟩
    | call ha hargs =>
      cases hb with
      | call hb hargs' => exact meets_call_sharing h hk ha hb (forall₂_sharing hargs hargs') limit

end Simulation

namespace Document

variable {doc : Document} {a b : ExprId}

/-- **Sharing is invisible.** In a well-formed document let two expressions have the same tree, however
their parts are shared. Then both fold to the same. In every environment that knows its functions, and on
every stack, both are evaluated to the same value, or both end with an error of the same kind that is
the same in all but the call. The stack is left as it was. -/
theorem sharing_invisible (h : doc.WellFormed) (ha : a.index < doc.exprs.size)
    (htree : doc.tree a = doc.tree b) :
    (∃ value, doc.fold a = .ok value ∧ doc.fold b = .ok value) ∧
      ∀ (env : Environment) (stack : CallStack), env.Known doc →
        (∃ value, doc.evalExpr env a stack = .ok value stack ∧
          doc.evalExpr env b stack = .ok value stack) ∨
        ∃ error call, doc.evalExpr env a stack = .error (.error error) stack ∧
          doc.evalExpr env b stack = .error (.error (error.withCall call)) stack := by
  obtain ⟨t, ht⟩ := h.exists_tree ha
  have hunfolds : doc.Unfolds a t := .of_unfold ht
  have hunfolds' : doc.Unfolds b t := .of_unfold (htree.symm.trans ht)
  constructor
  · exact ⟨t.fold, (fold_eq_ok h.acyclic).2 hunfolds.folds, (fold_eq_ok h.acyclic).2 hunfolds'.folds⟩
  · intro env stack hk
    have hlevel : Simulation.Level stack.limit stack.limit stack stack := ⟨rfl, rfl, rfl⟩
    cases (Simulation.sound_sharing h stack.limit).evalExpr ⟨rfl, hk⟩ ⟨t, hunfolds, hunfolds'⟩
      hlevel with
    | value hvalue hvalue' => exact Or.inl ⟨_, hvalue, hvalue'⟩
    | error hs hs' herror =>
      obtain ⟨call, rfl⟩ := herror
      exact Or.inr ⟨_, call, hs, hs'⟩
    | excused _ hexcused => exact hexcused.elim

/-- A function of one parameter, and two calls of it with the argument `3 + 3`. In the first of them the
two numbers are one expression. -/
def sharedSum : Document where
  exprs := #[.number ⟨0x4008000000000000⟩, .number ⟨0x4008000000000000⟩, .binary .add ⟨0⟩ ⟨0⟩,
    .binary .add ⟨1⟩ ⟨0⟩, .call (some (.parameter ⟨0⟩ 0)) [], .call (some (.definition ⟨0⟩)) [⟨2⟩],
    .call (some (.definition ⟨0⟩)) [⟨3⟩]]
  definitions := #[{ name := ⟨1⟩, params := [⟨2⟩], body := ⟨4⟩ }]
  statements := #[.definition ⟨0⟩]

/-- Both calls come to six, and without room for a frame each of them is an error of its own. -/
theorem sharedSum_invisible :
    sharedSum.WellFormed ∧ sharedSum.tree ⟨5⟩ = sharedSum.tree ⟨6⟩ ∧
      (Environment.empty.define ⟨1⟩ (.function ⟨0⟩)).Known sharedSum ∧
      (∃ value, sharedSum.fold ⟨5⟩ = .ok value ∧ sharedSum.fold ⟨6⟩ = .ok value) ∧
      sharedSum.evalExpr (Environment.empty.define ⟨1⟩ (.function ⟨0⟩)) ⟨6⟩ (.new 1) =
        .ok (some ⟨0x4018000000000000⟩) (.new 1) ∧
      sharedSum.evalExpr (Environment.empty.define ⟨1⟩ (.function ⟨0⟩)) ⟨5⟩ (.new 0) =
        .error (.error (.recursionLimit "" ⟨5⟩ 0)) (.new 0) ∧
      ∃ call, sharedSum.evalExpr (Environment.empty.define ⟨1⟩ (.function ⟨0⟩)) ⟨6⟩ (.new 0) =
        .error (.error (.recursionLimit "" call 0)) (.new 0) := by
  have hw : sharedSum.WellFormed :=
    wellFormed_of_earlier (by decide) (by decide) (by decide) (by decide)
  have htree : sharedSum.tree ⟨5⟩ = sharedSum.tree ⟨6⟩ := rfl
  have hk : (Environment.empty.define ⟨1⟩ (.function ⟨0⟩)).Known sharedSum := by
    apply (Environment.known_empty sharedSum).define
    intro id hid
    cases hid
    decide
  obtain ⟨hfold, heval⟩ := sharing_invisible hw (by decide) htree
  have hfull : sharedSum.evalExpr (Environment.empty.define ⟨1⟩ (.function ⟨0⟩)) ⟨5⟩ (.new 0) =
      .error (.error (.recursionLimit "" ⟨5⟩ 0)) (.new 0) := rfl
  refine ⟨hw, htree, hk, hfold, rfl, hfull, ?_⟩
  rcases heval _ (.new 0) hk with ⟨value, hvalue, -⟩ | ⟨error, call, herror, herror'⟩
  · rw [hfull] at hvalue
    cases hvalue
  · rw [hfull] at herror
    cases herror
    exact ⟨call, herror'⟩

end Document

end Reckon
