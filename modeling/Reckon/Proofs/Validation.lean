import Reckon.Proofs.Folding
import Reckon.Proofs.Greetings
import Reckon.Proofs.Preorder
import Reckon.Text.Uppercase
import Reckon.Validate.Basic

/-!
# What validation reports

Validation threads one memory of folds and one list of diagnostics through a recursive walk. This
file shows that it comes to a plain list: one check for each person, the greetings, and one check for
each expression in the order of the walk, none of which knows of the others.

* `Document.personDiagnostic?`, `Document.nodeDiagnostic?`: what is wrong with one person or one
  expression, on its own.
* `exists_checkExpr`, `exists_foldlM_checkVisit`: what one visit, and a list of visits, adds.
* `validate_eq_checks`: validation in full, with the number of times that a diagnostic occurs.
* `exists_nodeDiagnostic?_of_mem_checks`: codes tell the errors of expressions from all others.
* `ZeroDivisorReport`, `exists_zeroDivisorReport`: what a reported zero divisor means for evaluation,
  and what it means that none is reported.
-/

namespace Reckon.Document

variable {doc : Document} {id : ExprId} {cache : FoldCache} {changes : Char → Bool}

/-! ### Checks on their own -/

/-- The warning about a person: the name is not empty and starts with a character that differs from
its uppercase form. -/
def personDiagnostic? (doc : Document) (changes : Char → Bool) (id : PersonId) :
    Option Diagnostic :=
  match doc.persons[id.index]? with
  | none => none
  | some person =>
    match person.name.toList with
    | [] => none
    | first :: _ => if changes first then some (nameDiagnostic id) else none

/-- Whether an expression, folded for itself, is a zero of either sign. -/
def foldsToZero (doc : Document) (id : ExprId) : Bool :=
  match doc.fold id with
  | .ok (some z) => z.isZero
  | _ => false

/-- The error of an expression: a divisor that folds to zero, or a call of a definition of the
document with another number of arguments. -/
def nodeDiagnostic? (doc : Document) (id : ExprId) : Option Diagnostic :=
  match doc.exprs[id.index]? with
  | some (.binary op _ right) =>
    if op.isDivision && doc.foldsToZero right then some (divisionDiagnostic id op) else none
  | some (.call (some (.definition callee)) args) =>
    match doc.definitions[callee.index]? with
    | some definition =>
      if definition.arity = args.length then none
      else some (arityDiagnostic id (doc.text definition.name) definition.arity args.length)
    | none => none
  | _ => none

theorem nodeDiagnostic?_of_binary {op : Operator} {left right : ExprId}
    (h : doc.exprs[id.index]? = some (.binary op left right)) :
    doc.nodeDiagnostic? id =
      if op.isDivision && doc.foldsToZero right then some (divisionDiagnostic id op) else none := by
  rw [nodeDiagnostic?, h]

theorem nodeDiagnostic?_of_call {target : Option CallTarget} {args : List ExprId}
    (h : doc.exprs[id.index]? = some (.call target args)) :
    doc.nodeDiagnostic? id = doc.checkArity id target args.length := by
  unfold nodeDiagnostic? checkArity
  rw [h]
  rcases target with _ | (callee | ⟨callee, index⟩) <;> rfl

theorem node_of_nodeDiagnostic? {diagnostic : Diagnostic}
    (h : doc.nodeDiagnostic? id = some diagnostic) : diagnostic.node = id.node := by
  unfold nodeDiagnostic? at h
  split at h
  · split at h <;> cases h
    rfl
  · split at h
    · split at h <;> cases h
      rfl
    · cases h
  · cases h

/-! ### Persons -/

theorem filterMap_zipIdx {α β : Type} (check : α × ℕ → Option β) (list : List α) (start : ℕ) :
    (list.zipIdx start).filterMap check =
      (List.range list.length).filterMap fun i => list[i]?.bind fun a => check (a, start + i) := by
  induction list generalizing start with
  | nil => rfl
  | cons a list ih =>
    rw [List.zipIdx_cons, List.length_cons, List.range_succ_eq_map, List.filterMap_cons,
      List.filterMap_cons, ih, List.filterMap_map]
    have hshift : ((fun i => (a :: list)[i]?.bind fun b => check (b, start + i)) ∘ Nat.succ) =
        fun i => list[i]?.bind fun b => check (b, start + 1 + i) := by
      funext i
      simp [Nat.add_comm, Nat.add_left_comm]
    rw [hshift]
    simp

theorem nameDiagnostics_eq (doc : Document) (changes : Char → Bool) :
    doc.nameDiagnostics changes =
      (List.range doc.persons.size).filterMap fun i => doc.personDiagnostic? changes ⟨i⟩ := by
  rw [nameDiagnostics, filterMap_zipIdx]
  congr 1
  funext i
  rw [personDiagnostic?, Array.getElem?_toList]
  cases doc.persons[i]? with
  | none => rfl
  | some person =>
    cases hname : person.name.toList <;> simp [Person.isUncapitalized, hname]

/-! ### One visit -/

theorem Walkable.exists_folds (hw : doc.Walkable) (hv : doc.Visited id) :
    ∃ value, doc.Folds id value :=
  Document.exists_folds hw.acyclic fun _ hnode => hw.visited_lt (hv.of_within hnode.within)

theorem foldsToZero_eq {value : Value} (hacyclic : doc.Acyclic) (hf : doc.Folds id value) :
    doc.foldsToZero id = value.any Binary64.isZero := by
  rw [foldsToZero, (fold_eq_ok hacyclic).2 hf]
  cases value <;> rfl

/-- A check with a memory of folds finds what the check on its own does, and remembers folds only. -/
theorem exists_checkExpr {expr : Expr} (hw : doc.Walkable) (hv : doc.Visited id)
    (hexpr : doc.exprs[id.index]? = some expr) (hc : doc.CacheSound cache) :
    ∃ rest, (doc.checkExpr id expr).run cache = .ok (doc.nodeDiagnostic? id, rest) ∧
      doc.CacheSound rest := by
  cases expr with
  | number x =>
    refine ⟨cache, ?_, hc⟩
    rw [nodeDiagnostic?, hexpr]
    rfl
  | binary op left right =>
    rw [checkExpr, checkDivision, nodeDiagnostic?_of_binary hexpr]
    cases op.isDivision with
    | false => exact ⟨cache, rfl, hc⟩
    | true =>
      have hright : doc.Visited right :=
        hv.of_within ((Within.refl doc right).of_child (child_right hexpr))
      obtain ⟨value, hf⟩ := hw.exists_folds hright
      obtain ⟨rest, hrest, hsound⟩ := exists_foldWith hw.acyclic hf (doc.rank_lt_height right) hc
      refine ⟨rest, ?_, hsound⟩
      show ((doc.foldWith doc.height right).run cache >>= _) = _
      rw [hrest, foldsToZero_eq hw.acyclic hf, Bool.true_and]
      rfl
  | call target args =>
    refine ⟨cache, ?_, hc⟩
    rw [nodeDiagnostic?_of_call hexpr]
    rfl
  | error =>
    refine ⟨cache, ?_, hc⟩
    rw [nodeDiagnostic?, hexpr]
    rfl

/-! ### The whole walk -/

/-- Visits add what the checks on their own find, in order. -/
theorem exists_foldlM_checkVisit (hw : doc.Walkable) {ids : List ExprId}
    (hids : ∀ id ∈ ids, doc.Visited id) (hc : doc.CacheSound cache)
    (diagnostics : Array Diagnostic) :
    ∃ rest, ids.foldlM (doc.visitExpr doc.checkVisit) { cache, diagnostics } =
        .ok { cache := rest
              diagnostics := diagnostics ++ (ids.filterMap doc.nodeDiagnostic?).toArray } ∧
      doc.CacheSound rest := by
  induction ids generalizing cache diagnostics with
  | nil => exact ⟨cache, by simp [pure, Except.pure], hc⟩
  | cons id ids ih =>
    have hv := hids id List.mem_cons_self
    obtain ⟨expr, hexpr⟩ : ∃ expr, doc.exprs[id.index]? = some expr :=
      ⟨_, Array.getElem?_eq_getElem (hw.visited_lt hv)⟩
    obtain ⟨middle, hmiddle, hcmiddle⟩ := exists_checkExpr hw hv hexpr hc
    obtain ⟨rest, hrest, hcrest⟩ := ih (fun x hx => hids x (List.mem_cons_of_mem id hx)) hcmiddle
      (diagnostics ++ (doc.nodeDiagnostic? id).toArray)
    refine ⟨rest, ?_, hcrest⟩
    have hstep : doc.visitExpr doc.checkVisit { cache, diagnostics } id =
        .ok { cache := middle, diagnostics := diagnostics ++ (doc.nodeDiagnostic? id).toArray } := by
      rw [visitExpr, expr_eq_ok.2 hexpr]
      show ((doc.checkExpr id expr).run cache >>= _) = _
      rw [hmiddle]
      rfl
    rw [List.foldlM_cons, hstep]
    show ids.foldlM (doc.visitExpr doc.checkVisit) _ = _
    rw [hrest, List.filterMap_cons]
    cases doc.nodeDiagnostic? id <;> simp

theorem exprDiagnostics_eq (hw : doc.Walkable) :
    doc.exprDiagnostics = .ok (doc.visitOrder.filterMap doc.nodeDiagnostic?) := by
  have hwalk : doc.walk doc.checkVisit {} =
      doc.visitOrder.foldlM (doc.visitExpr doc.checkVisit) {} :=
    walk_eq_foldlM hw.acyclic hw.hasStatement (fun _ _ _ => rfl) (fun _ _ _ => rfl) _
  obtain ⟨rest, hrest, -⟩ := exists_foldlM_checkVisit hw
    (fun _ h => (mem_visitOrder hw.acyclic).1 h) (cacheSound_empty doc) #[]
  rw [exprDiagnostics, hwalk, hrest]
  show Except.ok _ = _
  simp

/-- The checks that validation comes to. -/
def checks (doc : Document) (changes : Char → Bool) : List Diagnostic :=
  ((List.range doc.persons.size).filterMap fun i => doc.personDiagnostic? changes ⟨i⟩) ++
    doc.repeatedGreetings ++ doc.visitOrder.filterMap doc.nodeDiagnostic?

theorem validate_of_walkable (hw : doc.Walkable) (changes : Char → Bool) :
    doc.validate changes = .ok (doc.checks changes) := by
  rw [validate, greetingDiagnostics_eq, exprDiagnostics_eq hw, nameDiagnostics_eq]
  rfl

/-- The call `f (q + q, -0)` of a function with one parameter, where `q` is `1 % (1 / -0)`: the inner
division hides the divisor of the outer one and is reached twice. -/
def hiddenDivisor : Document where
  exprs := #[.number ⟨0x3ff0000000000000⟩, .number ⟨0x8000000000000000⟩, .binary .div ⟨0⟩ ⟨1⟩,
    .binary .mod ⟨0⟩ ⟨2⟩, .binary .add ⟨3⟩ ⟨3⟩, .call (some (.definition ⟨0⟩)) [⟨4⟩, ⟨1⟩]]
  definitions := #[{ name := ⟨0⟩, params := [⟨0⟩], body := ⟨1⟩ }]
  evaluations := #[{ expr := ⟨5⟩, source := none }]
  statements := #[.definition ⟨0⟩, .evaluation ⟨0⟩]
  persons := #[⟨"ada"⟩, ⟨"Bob"⟩, ⟨""⟩]
  greetings := #[⟨some ⟨1⟩⟩, ⟨none⟩, ⟨some ⟨1⟩⟩]

theorem hiddenDivisor_wellFormed : hiddenDivisor.WellFormed :=
  wellFormed_of_earlier (by decide) (by decide) (by decide) (by decide)

theorem code_of_mem_nameDiagnostics {diagnostic : Diagnostic}
    (h : diagnostic ∈ doc.nameDiagnostics changes) : diagnostic.code = .uncapitalizedName := by
  obtain ⟨⟨person, index⟩, -, hperson⟩ := List.mem_filterMap.1 h
  dsimp only at hperson
  split at hperson <;> cases hperson
  rfl

theorem code_of_mem_repeatedGreetings {diagnostic : Diagnostic}
    (h : diagnostic ∈ doc.repeatedGreetings) : diagnostic.code = .repeatedGreeting := by
  obtain ⟨number, -, hgreeting⟩ := List.mem_filterMap.1 h
  obtain ⟨person, count, rfl⟩ := eq_of_repeatedGreeting? hgreeting
  rfl

/-- A diagnostic with any other code is the error of an expression. -/
theorem exists_nodeDiagnostic?_of_mem_checks {diagnostic : Diagnostic}
    (h : diagnostic ∈ doc.checks changes) (hname : diagnostic.code ≠ .uncapitalizedName)
    (hgreeting : diagnostic.code ≠ .repeatedGreeting) :
    ∃ id ∈ doc.visitOrder, doc.nodeDiagnostic? id = some diagnostic := by
  rw [checks, ← nameDiagnostics_eq, List.mem_append, List.mem_append] at h
  rcases h with (hmem | hmem) | hmem
  · exact absurd (code_of_mem_nameDiagnostics hmem) hname
  · exact absurd (code_of_mem_repeatedGreetings hmem) hgreeting
  · exact List.mem_filterMap.1 hmem

theorem code_of_checkArity {target : Option CallTarget} {got : ℕ} {diagnostic : Diagnostic}
    (h : doc.checkArity id target got = some diagnostic) :
    diagnostic.code = .wrongArgumentCount := by
  unfold checkArity at h
  split at h
  · split at h
    · split at h <;> cases h
      rfl
    · cases h
  · cases h

/-- The error of an expression is about a zero divisor exactly if it divides by a fold of zero. -/
theorem exists_zeroDivisor_iff (hacyclic : doc.Acyclic) :
    (∃ diagnostic, doc.nodeDiagnostic? id = some diagnostic ∧ diagnostic.code = .zeroDivisor) ↔
      doc.DividesByZero id := by
  constructor
  · rintro ⟨diagnostic, h, hcode⟩
    cases hexpr : doc.exprs[id.index]? with
    | none => simp [nodeDiagnostic?, hexpr] at h
    | some expr =>
      cases expr with
      | binary op left right =>
        rw [nodeDiagnostic?_of_binary hexpr] at h
        split at h
        · rename_i hcond
          obtain ⟨hop, hzero⟩ := Bool.and_eq_true_iff.1 hcond
          unfold foldsToZero at hzero
          split at hzero
          · rename_i z hfold
            exact ⟨op, left, right, z, hexpr, hop, Folds.of_fold hfold, hzero⟩
          · cases hzero
        · cases h
      | call target args =>
        rw [nodeDiagnostic?_of_call hexpr] at h
        rw [code_of_checkArity h] at hcode
        cases hcode
      | number x => simp [nodeDiagnostic?, hexpr] at h
      | error => simp [nodeDiagnostic?, hexpr] at h
  · rintro ⟨op, left, right, z, hexpr, hop, hf, hz⟩
    refine ⟨divisionDiagnostic id op, ?_, rfl⟩
    rw [nodeDiagnostic?_of_binary hexpr, hop, foldsToZero_eq hacyclic hf, Option.any_some, hz]
    rfl

/-- An arithmetic expression folds to a number, unless it divides by zero somewhere. -/
theorem Arithmetic.folds_or_dividesByZero (hacyclic : doc.Acyclic) (h : doc.Arithmetic id) :
    (∃ x, doc.Folds id (some x)) ∨
      ∃ node, doc.OperatorTree id node ∧ doc.DividesByZero node := by
  have hlt : ∀ node, doc.OperatorTree id node → node.index < doc.exprs.size := by
    intro node hnode
    rcases h node hnode with ⟨x, hx⟩ | ⟨op, left, right, hbinary⟩
    · exact (Array.getElem?_eq_some_iff.1 hx).1
    · exact (Array.getElem?_eq_some_iff.1 hbinary).1
  obtain ⟨value, hf⟩ := exists_folds hacyclic hlt
  cases value with
  | some x => exact Or.inl ⟨x, hf⟩
  | none =>
    obtain ⟨node, hnode, hcall | herror | hzero⟩ := hf.exists_reason
    · obtain ⟨target, args, hcall⟩ := hcall
      rcases h node hnode with ⟨x, hx⟩ | ⟨op, left, right, hbinary⟩
      · simp [hcall] at hx
      · simp [hcall] at hbinary
    · rcases h node hnode with ⟨x, hx⟩ | ⟨op, left, right, hbinary⟩
      · simp [herror] at hx
      · simp [herror] at hbinary
    · exact Or.inr ⟨node, hnode, hzero⟩

/-- What the errors about zero divisors in a list of diagnostics mean. -/
structure ZeroDivisorReport (doc : Document) (diagnostics : List Diagnostic) : Prop where
  /-- Each of them is on a division that some statement leads to, and the divisor is evaluated to
  zero wherever that happens. -/
  sound : ∀ diagnostic ∈ diagnostics, diagnostic.code = .zeroDivisor →
    ∃ id op left right z, diagnostic.node = id.node ∧ doc.Visited id ∧
      doc.exprs[id.index]? = some (.binary op left right) ∧ op.isDivision = true ∧
      doc.Constant right z ∧ z.isZero = true
  /-- If there are none, then a divisor that is made of literals and operators is evaluated to a
  number other than zero wherever that happens. -/
  complete : (∀ diagnostic ∈ diagnostics, diagnostic.code ≠ .zeroDivisor) →
    ∀ id op left right, doc.Visited id → doc.exprs[id.index]? = some (.binary op left right) →
      op.isDivision = true → doc.Arithmetic right →
      ∃ x, doc.Constant right x ∧ x.isZero = false

/-- **Reported zero divisors are the ones there are.** A division inside a divisor may hide it from
the check, as the divisor then does not fold; but then it is reported itself. -/
theorem exists_zeroDivisorReport (hw : doc.Walkable) (changes : Char → Bool) :
    ∃ diagnostics, doc.validate changes = .ok diagnostics ∧
      doc.ZeroDivisorReport diagnostics := by
  have hzero : ∀ {id}, doc.Visited id → doc.DividesByZero id →
      ∃ diagnostic ∈ doc.checks changes, diagnostic.code = .zeroDivisor := by
    intro id hv hd
    obtain ⟨diagnostic, hdiagnostic, hcode⟩ := (exists_zeroDivisor_iff hw.acyclic).2 hd
    refine ⟨diagnostic, List.mem_append_right _ ?_, hcode⟩
    exact List.mem_filterMap.2 ⟨id, (mem_visitOrder hw.acyclic).2 hv, hdiagnostic⟩
  refine ⟨doc.checks changes, validate_of_walkable hw changes, ?_, ?_⟩
  · intro diagnostic hmem hcode
    obtain ⟨id, hid, hdiagnostic⟩ := exists_nodeDiagnostic?_of_mem_checks hmem
      (by simp [hcode]) (by simp [hcode])
    obtain ⟨op, left, right, z, hexpr, hop, hf, hz⟩ :=
      (exists_zeroDivisor_iff hw.acyclic).1 ⟨diagnostic, hdiagnostic, hcode⟩
    exact ⟨id, op, left, right, z, node_of_nodeDiagnostic? hdiagnostic,
      (mem_visitOrder hw.acyclic).1 hid, hexpr, hop, constant_of_folds hf, hz⟩
  · intro hnone id op left right hv hexpr hop harith
    have hright := hv.of_within ((Within.refl doc right).of_child (child_right hexpr))
    rcases harith.folds_or_dividesByZero hw.acyclic with ⟨x, hf⟩ | ⟨node, hnode, hd⟩
    · refine ⟨x, constant_of_folds hf, ?_⟩
      by_contra hx
      have hd : doc.DividesByZero id :=
        ⟨op, left, right, x, hexpr, hop, hf, Bool.not_eq_false _ ▸ hx⟩
      obtain ⟨diagnostic, hmem, hcode⟩ := hzero hv hd
      exact hnone diagnostic hmem hcode
    · obtain ⟨diagnostic, hmem, hcode⟩ := hzero (hright.of_within hnode.within) hd
      exact absurd hcode (hnone diagnostic hmem)

theorem hiddenDivisor_report :
    hiddenDivisor.Walkable ∧
      ∃ diagnostics, hiddenDivisor.validate Uppercase.changes = .ok diagnostics ∧
        hiddenDivisor.ZeroDivisorReport diagnostics :=
  ⟨hiddenDivisor_wellFormed.walkable,
    exists_zeroDivisorReport hiddenDivisor_wellFormed.walkable Uppercase.changes⟩

end Reckon.Document
