import Mathlib.Data.Set.Insert
import Reckon.Proofs.Folding
import Reckon.Proofs.Preorder

/-!
# What a folder remembers

Expressions may share their parts, so that there can be far more ways to a part than parts. A folder
gets by because it remembers. This file shows that the memory changes no answer, says what is in it
after any number of folds, and that nothing is ever computed a second time.

* `foldPlain_of_folds`: the plain recursion answers the fold of an expression.
* `Document.foldNoting`: a folder that also notes each expression that it computes. Apart from its
  notes it is the folder itself (`forget_run_foldNoting`).
* `Document.Learns`: what folding makes of a memory. Expressions that were not there are computed,
  each of them once. The step lemma is for one expression (`learns_of_foldNoting`), the run lemma
  for a list of them (`learns_of_mapM`).
* `folds_remembered`: any sequence of folds from an empty memory.
-/

namespace Reckon.Document

variable {doc : Document} {id : ExprId} {ids : List ExprId} {value : Value} {height : ℕ}
  {cache rest last : FoldCache} {nodes more : Set ExprId}
  {computed begun before after : List ExprId}

/-! ### Plain folding -/

/-- The plain recursion has no memory, and answers the same. -/
theorem foldPlain_of_folds (hacyclic : doc.Acyclic) (hf : doc.Folds id value)
    (hrank : doc.rank id < height) : doc.foldPlain height id = .ok value := by
  induction height generalizing id value with
  | zero => exact absurd hrank (Nat.not_lt_zero _)
  | succ height ih =>
    rw [foldPlain]
    cases hf with
    | number h =>
      rw [expr_eq_ok.2 h]
      rfl
    | @binary _ left right op x y h hx hy =>
      have hleft := rank_lt_of_child (child_left h) (hacyclic id)
      have hright := rank_lt_of_child (child_right h) (hacyclic id)
      rw [expr_eq_ok.2 h]
      show (doc.foldPlain height left >>= fun x => doc.foldPlain height right >>= fun y =>
        .ok (Value.fold op x y)) = _
      rw [ih hx (by omega), ih hy (by omega)]
      rfl
    | call h =>
      rw [expr_eq_ok.2 h]
      rfl
    | error h =>
      rw [expr_eq_ok.2 h]
      rfl

/-! ### A folder that takes notes -/

/-- Folds as `foldWith` does, and notes each expression that is not remembered when its computation
begins. -/
def foldNoting (doc : Document) :
    (height : ℕ) → ExprId → StateT (FoldCache × List ExprId) (Except Fault) Value
  | 0, _ => throw .endless
  | height + 1, id => do
    match (← get).1[id]? with
    | some value => return value
    | none =>
      modify fun (cache, begun) => (cache, begun ++ [id])
      let value ←
        match ← doc.expr id with
        | .number value => pure (some value)
        | .binary op left right => do
          let left ← doc.foldNoting height left
          let right ← doc.foldNoting height right
          pure (Value.fold op left right)
        | .call .. | .error => pure none
      modify fun (cache, begun) => (cache.insert id value, begun)
      return value

theorem foldNoting_of_remembered (hc : cache[id]? = some value) :
    (doc.foldNoting (height + 1) id).run (cache, begun) = .ok (value, cache, begun) := by
  rw [foldNoting]
  show (match cache[id]? with | some value => pure value | none => _ :
    StateT (FoldCache × List ExprId) (Except Fault) Value).run (cache, begun) = _
  rw [hc]
  rfl

theorem foldNoting_of_new (hc : cache[id]? = none) :
    (doc.foldNoting (height + 1) id).run (cache, begun) =
      doc.expr id >>= fun expr =>
        match expr with
        | .number value => .ok (some value, cache.insert id (some value), begun ++ [id])
        | .binary op left right => do
          let (left, cache, begun) ← (doc.foldNoting height left).run (cache, begun ++ [id])
          let (right, cache, begun) ← (doc.foldNoting height right).run (cache, begun)
          .ok (Value.fold op left right, cache.insert id (Value.fold op left right), begun)
        | .call .. | .error => .ok (none, cache.insert id none, begun ++ [id]) := by
  rw [foldNoting]
  show (match cache[id]? with | some value => _ | none => _ :
    StateT (FoldCache × List ExprId) (Except Fault) Value).run (cache, begun) = _
  rw [hc]
  simp only [StateT.run_bind, StateT.run_modify, pure_bind]
  cases doc.expr id with
  | error fault => rfl
  | ok expr =>
    cases expr with
    | number value => rfl
    | binary op left right =>
      show (do
        let left ← doc.foldNoting height left
        let right ← doc.foldNoting height right
        modify fun (cache, begun) => (cache.insert id (Value.fold op left right), begun)
        return Value.fold op left right :
          StateT (FoldCache × List ExprId) (Except Fault) Value).run (cache, begun ++ [id]) = _
      simp only [StateT.run_bind, StateT.run_modify, StateT.run_pure]
      rfl
    | call target args => rfl
    | error => rfl

/-- An answer without the notes. -/
def forget {α : Type} (answer : α × FoldCache × List ExprId) : α × FoldCache :=
  (answer.1, answer.2.1)

theorem forget_bind {α β : Type} {noting : Except Fault (α × FoldCache × List ExprId)}
    {plain : Except Fault (α × FoldCache)}
    {next : α × FoldCache × List ExprId → Except Fault (β × FoldCache × List ExprId)}
    {plainNext : α × FoldCache → Except Fault (β × FoldCache)} (h : forget <$> noting = plain)
    (hnext : ∀ answer, forget <$> next answer = plainNext (forget answer)) :
    forget <$> (noting >>= next) = plain >>= plainNext := by
  subst h
  cases noting with
  | error fault => rfl
  | ok answer => exact hnext answer

/-- **The notes are all that is added.** -/
theorem forget_run_foldNoting (doc : Document) (height : ℕ) (id : ExprId) (cache : FoldCache)
    (begun : List ExprId) :
    forget <$> (doc.foldNoting height id).run (cache, begun) =
      (doc.foldWith height id).run cache := by
  induction height generalizing id cache begun with
  | zero => rfl
  | succ height ih =>
    cases hfound : cache[id]? with
    | some value =>
      rw [foldNoting_of_remembered hfound, foldWith_of_remembered hfound]
      rfl
    | none =>
      rw [foldNoting_of_new hfound, foldWith_of_new hfound]
      cases doc.expr id with
      | error fault => rfl
      | ok expr =>
        cases expr with
        | binary op left right =>
          apply forget_bind (ih left cache (begun ++ [id]))
          rintro ⟨x, afterLeft, begun⟩
          apply forget_bind (ih right afterLeft begun)
          rintro ⟨y, afterRight, begun⟩
          rfl
        | number value => rfl
        | call target args => rfl
        | error => rfl

theorem forget_run_mapM (doc : Document) (ids : List ExprId) (cache : FoldCache)
    (begun : List ExprId) :
    forget <$> (ids.mapM (doc.foldNoting doc.height)).run (cache, begun) =
      (ids.mapM doc.foldNext).run cache := by
  induction ids generalizing cache begun with
  | nil => rfl
  | cons id ids ih =>
    simp only [List.mapM_cons, StateT.run_bind]
    apply forget_bind (doc.forget_run_foldNoting doc.height id cache begun)
    rintro ⟨value, middle, begun⟩
    apply forget_bind (ih middle begun)
    rintro ⟨values, last, begun⟩
    rfl

/-- A run of the folder is one with notes. -/
theorem exists_noting {values : List Value}
    (h : (ids.mapM doc.foldNext).run cache = .ok (values, rest)) (before : List ExprId) :
    ∃ after, (ids.mapM (doc.foldNoting doc.height)).run (cache, before) =
      .ok (values, rest, after) := by
  rw [← doc.forget_run_mapM ids cache before] at h
  cases hnoting : (ids.mapM (doc.foldNoting doc.height)).run (cache, before) with
  | error fault =>
    rw [hnoting] at h
    cases h
  | ok answer =>
    rw [hnoting] at h
    cases h
    exact ⟨answer.2.2, rfl⟩

/-! ### What is learnt -/

/-- Folding takes the memory from `cache` to `rest`: then also these expressions are remembered, and
those of them that were not are computed, in this order and each of them once. -/
structure Learns (nodes : Set ExprId) (cache rest : FoldCache) (computed : List ExprId) : Prop where
  mem_iff : ∀ node, node ∈ rest ↔ node ∈ cache ∨ node ∈ nodes
  nodup : computed.Nodup
  mem_computed : ∀ node, node ∈ computed ↔ node ∈ nodes ∧ node ∉ cache

theorem learns_nothing (h : ∀ node ∈ nodes, node ∈ cache) : Learns nodes cache cache [] where
  mem_iff node := ⟨Or.inl, fun hnode => hnode.elim id (h node)⟩
  nodup := List.nodup_nil
  mem_computed node := by
    constructor
    · intro hnode
      cases hnode
    · rintro ⟨hnode, hnot⟩
      exact absurd (h node hnode) hnot

/-- What is learnt first is not computed again. -/
theorem Learns.trans (h : Learns nodes cache rest computed) (h' : Learns more rest last begun) :
    Learns (nodes ∪ more) cache last (computed ++ begun) where
  mem_iff node := by
    rw [h'.mem_iff, h.mem_iff, Set.mem_union, or_assoc]
  nodup := by
    apply h.nodup.append h'.nodup
    intro node hfirst hsecond
    have hrest : node ∈ rest := (h.mem_iff node).2 (Or.inr ((h.mem_computed node).1 hfirst).1)
    exact ((h'.mem_computed node).1 hsecond).2 hrest
  mem_computed node := by
    rw [List.mem_append, h.mem_computed, h'.mem_computed, h.mem_iff, Set.mem_union]
    tauto

/-- An expression is computed after it was begun with, and what was learnt in between did not
include it. -/
theorem Learns.compute (h : Learns nodes cache rest computed) (hcache : id ∉ cache)
    (hnodes : id ∉ nodes) (value : Value) :
    Learns (insert id nodes) cache (rest.insert id value) (id :: computed) where
  mem_iff node := by
    rw [Std.ExtTreeMap.mem_insert, Std.LawfulEqCmp.compare_eq_iff_eq, h.mem_iff, Set.mem_insert_iff,
      eq_comm (a := id), or_left_comm]
  nodup := by
    rw [List.nodup_cons]
    exact ⟨fun hid => hnodes ((h.mem_computed id).1 hid).1, h.nodup⟩
  mem_computed node := by
    rw [List.mem_cons, h.mem_computed, Set.mem_insert_iff]
    constructor
    · rintro (rfl | ⟨hnode, hnot⟩)
      · exact ⟨Or.inl rfl, hcache⟩
      · exact ⟨Or.inr hnode, hnot⟩
    · rintro ⟨rfl | hnode, hnot⟩
      · exact Or.inl rfl
      · exact Or.inr ⟨hnode, hnot⟩

/-- With an expression all that is reached from it through operands is in the set. -/
def OperandsClosed (doc : Document) (nodes : Set ExprId) : Prop :=
  ∀ whole ∈ nodes, ∀ part, doc.OperatorTree whole part → part ∈ nodes

theorem operandsClosed_operatorTree (doc : Document) (id : ExprId) :
    doc.OperandsClosed {node | doc.OperatorTree id node} :=
  fun _ hwhole _ hpart => hwhole.trans hpart

theorem Learns.operandsClosed (h : Learns nodes cache rest computed)
    (hcache : doc.OperandsClosed {node | node ∈ cache}) (hnodes : doc.OperandsClosed nodes) :
    doc.OperandsClosed {node | node ∈ rest} := by
  intro whole hwhole part hpart
  rcases (h.mem_iff whole).1 hwhole with hold | hnew
  · exact (h.mem_iff part).2 (Or.inl (hcache whole hold part hpart))
  · exact (h.mem_iff part).2 (Or.inr (hnodes whole hnew part hpart))

/-- **One fold.** A memory that is closed under operands learns the operator tree of the
expression. -/
theorem learns_of_foldNoting (hacyclic : doc.Acyclic)
    (hclosed : doc.OperandsClosed {node | node ∈ cache})
    (h : (doc.foldNoting height id).run (cache, before) = .ok (value, rest, after)) :
    ∃ computed, after = before ++ computed ∧
      Learns {node | doc.OperatorTree id node} cache rest computed := by
  induction height generalizing id cache before value rest after with
  | zero => cases h
  | succ height ih =>
    cases hfound : cache[id]? with
    | some found =>
      rw [foldNoting_of_remembered hfound] at h
      cases h
      have hmem : id ∈ cache := by simp [Std.ExtTreeMap.mem_iff_isSome_getElem?, hfound]
      exact ⟨[], by simp, learns_nothing fun node hnode => hclosed id hmem node hnode⟩
    | none =>
      rw [foldNoting_of_new hfound] at h
      have hnot : id ∉ cache := by simp [Std.ExtTreeMap.mem_iff_isSome_getElem?, hfound]
      -- without operands the expression itself is all there is to learn
      have hleaf : (∀ op left right, doc.exprs[id.index]? ≠ some (.binary op left right)) →
          ∀ value, Learns {node | doc.OperatorTree id node} cache (cache.insert id value) [id] := by
        intro hleaf value
        have htree : {node | doc.OperatorTree id node} = insert id ∅ := by
          ext node
          simp [operatorTree_of_leaf hleaf]
        rw [htree]
        exact (learns_nothing (by simp)).compute hnot (by simp) value
      obtain ⟨expr, hexpr, h⟩ := bind_eq_ok.1 h
      rw [expr_eq_ok] at hexpr
      cases expr with
      | binary op left right =>
        obtain ⟨⟨x, afterLeft, begunLeft⟩, hleft, h⟩ := bind_eq_ok.1 h
        obtain ⟨⟨y, afterRight, begunRight⟩, hright, h⟩ := bind_eq_ok.1 h
        cases h
        obtain ⟨first, rfl, hl⟩ := ih hclosed hleft
        have hmiddle := hl.operandsClosed hclosed (doc.operandsClosed_operatorTree left)
        obtain ⟨second, rfl, hr⟩ := ih hmiddle hright
        have htree : {node | doc.OperatorTree id node} =
            insert id ({node | doc.OperatorTree left node} ∪
              {node | doc.OperatorTree right node}) := by
          ext node
          simp [operatorTree_of_binary hexpr]
        have hself : id ∉ {node | doc.OperatorTree left node} ∪
            {node | doc.OperatorTree right node} := by
          rintro (hin | hin)
          · exact hacyclic id (hin.within.contains (child_left hexpr))
          · exact hacyclic id (hin.within.contains (child_right hexpr))
        refine ⟨id :: (first ++ second), by simp, ?_⟩
        rw [htree]
        exact (hl.trans hr).compute hnot hself _
      | number x =>
        cases h
        exact ⟨[id], rfl, hleaf (by simp [hexpr]) _⟩
      | call target args =>
        cases h
        exact ⟨[id], rfl, hleaf (by simp [hexpr]) _⟩
      | error =>
        cases h
        exact ⟨[id], rfl, hleaf (by simp [hexpr]) _⟩

/-- **A sequence of folds.** The memory learns all their operator trees. -/
theorem learns_of_mapM {values : List Value} (hacyclic : doc.Acyclic)
    (hclosed : doc.OperandsClosed {node | node ∈ cache})
    (h : (ids.mapM (doc.foldNoting doc.height)).run (cache, before) = .ok (values, rest, after)) :
    ∃ computed, after = before ++ computed ∧
      Learns {node | ∃ id ∈ ids, doc.OperatorTree id node} cache rest computed := by
  induction ids generalizing cache before values rest after with
  | nil =>
    cases h
    exact ⟨[], by simp, learns_nothing (by simp)⟩
  | cons id ids ih =>
    simp only [List.mapM_cons, StateT.run_bind] at h
    obtain ⟨⟨value, middle, begun⟩, hfirst, h⟩ := bind_eq_ok.1 h
    obtain ⟨⟨values, last, begun⟩, hothers, h⟩ := bind_eq_ok.1 h
    cases h
    obtain ⟨first, rfl, hl⟩ := learns_of_foldNoting hacyclic hclosed hfirst
    have hmiddle := hl.operandsClosed hclosed (doc.operandsClosed_operatorTree id)
    obtain ⟨others, rfl, hr⟩ := ih hmiddle hothers
    refine ⟨first ++ others, by simp, ?_⟩
    have htrees : {node | ∃ x ∈ id :: ids, doc.OperatorTree x node} =
        {node | doc.OperatorTree id node} ∪ {node | ∃ x ∈ ids, doc.OperatorTree x node} := by
      ext node
      simp
    rw [htrees]
    exact hl.trans hr

/-! ### Sequences of folds -/

/-- Folds in sequence are answered one by one, and all that is remembered are folds. -/
theorem exists_run_mapM (hacyclic : doc.Acyclic) {values : List Value}
    (hf : List.Forall₂ doc.Folds ids values) (hc : doc.CacheSound cache) :
    ∃ rest, (ids.mapM doc.foldNext).run cache = .ok (values, rest) ∧ doc.CacheSound rest := by
  induction hf generalizing cache with
  | nil => exact ⟨cache, rfl, hc⟩
  | @cons id value ids values hfold _ ih =>
    obtain ⟨middle, hfirst, hmiddle⟩ :=
      exists_foldWith hacyclic hfold (doc.rank_lt_height id) hc
    obtain ⟨rest, hothers, hrest⟩ := ih hmiddle
    refine ⟨rest, ?_, hrest⟩
    rw [List.mapM_cons, StateT.run_bind, foldNext, hfirst]
    show ((ids.mapM doc.foldNext).run middle >>= _) = _
    rw [hothers]
    rfl

theorem mapM_foldPlain (hacyclic : doc.Acyclic) {values : List Value}
    (hf : List.Forall₂ doc.Folds ids values) :
    ids.mapM (doc.foldPlain doc.height) = .ok values := by
  induction hf with
  | nil => rfl
  | @cons id value ids values hfold _ ih =>
    rw [List.mapM_cons, foldPlain_of_folds hacyclic hfold (doc.rank_lt_height id), ih]
    rfl

theorem WellFormed.exists_folds_of_lt (h : doc.WellFormed) (hid : id.index < doc.exprs.size) :
    ∃ value, doc.Folds id value :=
  exists_folds h.acyclic fun _ hnode => h.index_lt_of_within hid hnode.within

theorem WellFormed.exists_forall₂_folds (h : doc.WellFormed)
    (hids : ∀ id ∈ ids, id.index < doc.exprs.size) :
    ∃ values, List.Forall₂ doc.Folds ids values := by
  induction ids with
  | nil => exact ⟨[], .nil⟩
  | cons id ids ih =>
    obtain ⟨value, hf⟩ := h.exists_folds_of_lt (hids id List.mem_cons_self)
    obtain ⟨values, hfs⟩ := ih fun x hx => hids x (List.mem_cons_of_mem id hx)
    exact ⟨value :: values, .cons hf hfs⟩

/-- **A folder answers as if it remembered nothing, and computes nothing twice.** In a well-formed
document, put any sequence of expressions to one folder that starts with an empty memory.

* Each of them is answered as by the plain recursion.
* Afterwards the memory holds the expressions reached from them through operands, and no others.
  Both operands of an operator are among them, whether or not they fold. Arguments of calls are
  not, unless they are operands as well.
* What is remembered of an expression is its plain fold.
* The expressions that the folder has computed on the way, each time that it began with one, are the
  ones in the memory, each of them once. They are known from the folder that takes notes, and this one
  differs from the other in nothing but its notes, whatever it is asked and whatever it remembers. -/
theorem folds_remembered (h : doc.WellFormed) (hids : ∀ id ∈ ids, id.index < doc.exprs.size) :
    (∀ height id cache begun, forget <$> (doc.foldNoting height id).run (cache, begun) =
      (doc.foldWith height id).run cache) ∧
    ∃ values cache computed,
      (ids.mapM doc.foldNext).run ∅ = .ok (values, cache) ∧
      ids.mapM (doc.foldPlain doc.height) = .ok values ∧
      (∀ node, node ∈ cache ↔ ∃ id ∈ ids, doc.OperatorTree id node) ∧
      (∀ node value, cache[node]? = some value → doc.foldPlain doc.height node = .ok value) ∧
      (ids.mapM (doc.foldNoting doc.height)).run (∅, []) = .ok (values, cache, computed) ∧
      computed.Nodup ∧ ∀ node, node ∈ computed ↔ node ∈ cache := by
  obtain ⟨values, hf⟩ := h.exists_forall₂_folds hids
  obtain ⟨cache, hrun, hsound⟩ := exists_run_mapM h.acyclic hf (cacheSound_empty doc)
  obtain ⟨computed, hnoting⟩ := exists_noting hrun []
  have hempty : doc.OperandsClosed {node | node ∈ (∅ : FoldCache)} := by
    intro whole hwhole
    simp at hwhole
  obtain ⟨_, rfl, hlearns⟩ := learns_of_mapM h.acyclic hempty hnoting
  have hmem : ∀ node, node ∈ cache ↔ ∃ id ∈ ids, doc.OperatorTree id node := by
    intro node
    simpa using hlearns.mem_iff node
  refine ⟨doc.forget_run_foldNoting, values, cache, _, hrun, mapM_foldPlain h.acyclic hf, hmem, ?_,
    hnoting, hlearns.nodup, ?_⟩
  · intro node value hvalue
    exact foldPlain_of_folds h.acyclic (hsound node value hvalue) (doc.rank_lt_height node)
  · intro node
    rw [hmem]
    simpa using hlearns.mem_computed node

/-- The square of `1 / 0 + f 3`, where `f` is nothing: neither operand of the sum folds. -/
def sharedQuotient : Document where
  exprs := #[.number ⟨0x3ff0000000000000⟩, .number ⟨0⟩, .binary .div ⟨0⟩ ⟨1⟩,
    .number ⟨0x4008000000000000⟩, .call none [⟨3⟩], .binary .add ⟨2⟩ ⟨4⟩, .binary .mul ⟨5⟩ ⟨5⟩]

/-- Three folds compute six expressions, the call among them and its argument not. -/
theorem sharedQuotient_remembered :
    sharedQuotient.WellFormed ∧
      ∃ values cache,
        ([⟨5⟩, ⟨6⟩, ⟨0⟩].mapM sharedQuotient.foldNext).run ∅ = .ok (values, cache) ∧
        values = [none, none, some ⟨0x3ff0000000000000⟩] ∧
        ∀ node, node ∈ ([⟨5⟩, ⟨2⟩, ⟨0⟩, ⟨1⟩, ⟨4⟩, ⟨6⟩] : List ExprId) ↔ node ∈ cache := by
  have hw : sharedQuotient.WellFormed :=
    wellFormed_of_earlier (by decide) (by decide) (by decide) (by decide)
  obtain ⟨-, values, cache, computed, hrun, hplain, -, -, hnoting, -, hmem⟩ :=
    @folds_remembered sharedQuotient [⟨5⟩, ⟨6⟩, ⟨0⟩] hw (by decide)
  have hvalues : [⟨5⟩, ⟨6⟩, ⟨0⟩].mapM (sharedQuotient.foldPlain sharedQuotient.height) =
      .ok [none, none, some ⟨0x3ff0000000000000⟩] := by
    decide +kernel
  have hcomputed : (fun answer => answer.2.2) <$>
      ([⟨5⟩, ⟨6⟩, ⟨0⟩].mapM (sharedQuotient.foldNoting sharedQuotient.height)).run (∅, []) =
        .ok [⟨5⟩, ⟨2⟩, ⟨0⟩, ⟨1⟩, ⟨4⟩, ⟨6⟩] := by
    decide +kernel
  rw [hnoting] at hcomputed
  rw [hplain] at hvalues
  cases hcomputed
  cases hvalues
  exact ⟨hw, _, cache, hrun, rfl, hmem⟩

end Reckon.Document
