import Mathlib.Data.Finset.Card
import Mathlib.Data.Finset.Dedup
import Reckon.Environment

/-!
# Environments and their histories

The environments of a family form a tree. Each of them is new or a snapshot of another one, and both
sides of a snapshot go on being written to, in any order. This file shows that an environment is the
sum of its own history, and so that no one else's definitions get into it.

* `Environment.Reflects`: an environment binds what the last definitions of a history bind. One
  definition more keeps this (`Reflects.define`), and so do any number (`Reflects.defineAll`).
* `Family.History`: the definitions that a member goes back to, those of its source up to the snapshot
  and then its own. Every member has one history (`exists_history`, `History.unique`).
* `Family.Descends`: a member is another one, or was taken from it since by snapshots.
* `applyAll_reflects_history`: every member reflects its history, and a definition is seen by nothing
  but the descendants of the member it is made on.
-/

namespace Reckon.Environment

variable {env : Environment} {history past : List (Name × Binding)} {name other : Name}
  {binding bound : Binding}

/-! ### What is left of a history -/

/-- The binding is the one of the last definition of the name. -/
def Latest (history : List (Name × Binding)) (name : Name) (binding : Binding) : Prop :=
  ∃ earlier later, history = earlier ++ (name, binding) :: later ∧ ∀ entry ∈ later, entry.1 ≠ name

theorem latest_concat_self : Latest (history ++ [(name, binding)]) name bound ↔ binding = bound := by
  constructor
  · rintro ⟨earlier, later, hsplit, hlater⟩
    cases later using List.reverseRecOn with
    | nil =>
      obtain ⟨-, hlast⟩ := List.append_inj' hsplit rfl
      simpa using hlast
    | append_singleton later entry =>
      rw [← List.cons_append, ← List.append_assoc] at hsplit
      obtain ⟨-, hlast⟩ := List.append_inj' hsplit rfl
      have hentry := hlater entry (List.mem_append_right later (List.mem_singleton_self entry))
      rw [← List.singleton_inj.1 hlast] at hentry
      exact absurd rfl hentry
  · rintro rfl
    exact ⟨history, [], rfl, by simp⟩

theorem latest_concat_of_ne (hne : name ≠ other) :
    Latest (history ++ [(name, binding)]) other bound ↔ Latest history other bound := by
  constructor
  · rintro ⟨earlier, later, hsplit, hlater⟩
    cases later using List.reverseRecOn with
    | nil =>
      obtain ⟨-, hlast⟩ := List.append_inj' hsplit rfl
      have hname : name = other := congrArg Prod.fst (List.singleton_inj.1 hlast)
      exact absurd hname hne
    | append_singleton later entry =>
      rw [← List.cons_append, ← List.append_assoc] at hsplit
      obtain ⟨hhistory, -⟩ := List.append_inj' hsplit rfl
      exact ⟨earlier, later, hhistory, fun e he => hlater e (List.mem_append_left _ he)⟩
  · rintro ⟨earlier, later, rfl, hlater⟩
    refine ⟨earlier, later ++ [(name, binding)], by simp, ?_⟩
    intro entry hentry
    rcases List.mem_append.1 hentry with hmem | hmem
    · exact hlater entry hmem
    · rw [List.mem_singleton.1 hmem]
      exact hne

/-- An environment binds every name as a history does in the end, and no other names. -/
structure Reflects (env : Environment) (history : List (Name × Binding)) : Prop where
  /-- A name is bound by the last of its definitions. -/
  lookup_eq_some_iff : ∀ name binding, env.lookup name = some binding ↔ Latest history name binding
  /-- A name without a definition is unbound. -/
  lookup_eq_none_iff : ∀ name, env.lookup name = none ↔ ∀ entry ∈ history, entry.1 ≠ name
  /-- There are as many bindings as different names. -/
  size_eq : env.size = (history.map Prod.fst).toFinset.card

theorem reflects_empty : Reflects empty [] where
  lookup_eq_some_iff := by simp [Latest]
  lookup_eq_none_iff := by simp
  size_eq := rfl

theorem size_define (env : Environment) (name : Name) (binding : Binding) :
    (env.define name binding).size =
      if (env.lookup name).isSome then env.size else env.size + 1 := by
  simp [size, define, lookup, Std.ExtTreeMap.size_insert]

/-- One definition more. -/
theorem Reflects.define (h : env.Reflects history) (name : Name) (binding : Binding) :
    (env.define name binding).Reflects (history ++ [(name, binding)]) where
  lookup_eq_some_iff := by
    intro other bound
    rw [lookup_define]
    by_cases heq : name = other
    · subst heq
      rw [if_pos rfl, Option.some_inj, latest_concat_self]
    · rw [if_neg heq, h.lookup_eq_some_iff, latest_concat_of_ne heq]
  lookup_eq_none_iff := by
    intro other
    rw [lookup_define]
    by_cases heq : name = other
    · simp [heq]
    · rw [if_neg heq, h.lookup_eq_none_iff]
      simp [or_imp, forall_and, heq]
  size_eq := by
    have hbound : (env.lookup name).isSome = true ↔ name ∈ (history.map Prod.fst).toFinset := by
      rw [← Option.ne_none_iff_isSome, ne_eq, h.lookup_eq_none_iff]
      simp
    have hnames : ((history ++ [(name, binding)]).map Prod.fst).toFinset =
        insert name (history.map Prod.fst).toFinset := by
      simp [Finset.union_comm]
    rw [size_define, hnames, Finset.card_insert_eq_ite, h.size_eq]
    simp only [hbound]

/-- The environment after definitions in order. -/
def defineAll (env : Environment) (history : List (Name × Binding)) : Environment :=
  history.foldl (fun env (name, binding) => env.define name binding) env

/-- Any number of definitions more. -/
theorem Reflects.defineAll (h : env.Reflects past) (history : List (Name × Binding)) :
    (env.defineAll history).Reflects (past ++ history) := by
  induction history generalizing env past with
  | nil =>
    rw [List.append_nil]
    exact h
  | cons entry history ih =>
    have hnext := ih (h.define entry.1 entry.2)
    rwa [List.append_assoc, List.singleton_append] at hnext

namespace Family

/-! ### Members and their definitions -/

/-- Whether a change adds a member. -/
def Change.adds : Change → Bool
  | .new | .snapshot _ => true
  | .define .. => false

/-- The number of members after changes: there is one from the start. -/
def count (changes : List Change) : ℕ :=
  changes.countP Change.adds + 1

/-- What a change defines on a member. -/
def Change.definition? (number : ℕ) : Change → Option (Name × Binding)
  | .define target name binding => if target = number then some (name, binding) else none
  | .new | .snapshot _ => none

/-- The definitions on a member among changes. -/
def definitionsOn (number : ℕ) (changes : List Change) : List (Name × Binding) :=
  changes.filterMap (Change.definition? number)

/-- `history` is what the member has gone through. The history of a snapshot is the one of its source
up to the snapshot, and then its own. -/
inductive History : List Change → ℕ → List (Name × Binding) → Prop
  | first (changes : List Change) : History changes 0 (definitionsOn 0 changes)
  | new (before after : List Change) :
      History (before ++ .new :: after) (count before) (definitionsOn (count before) after)
  | snapshot {before : List Change} {source : ℕ} {past : List (Name × Binding)}
      (h : History before source past) (after : List Change) :
      History (before ++ .snapshot source :: after) (count before)
        (past ++ definitionsOn (count before) after)
  /-- What is not there has gone through nothing. -/
  | absent {changes : List Change} {number : ℕ} (h : count changes ≤ number) :
      History changes number []

variable {family : Family} {changes before after : List Change} {change : Change} {number : ℕ}

theorem size_apply (family : Family) (change : Change) :
    (family.apply change).members.size =
      family.members.size + if change.adds then 1 else 0 := by
  cases change <;> simp [apply, Change.adds]

theorem size_applyAll (family : Family) (changes : List Change) :
    (family.applyAll changes).members.size = family.members.size + changes.countP Change.adds := by
  induction changes generalizing family with
  | nil => rfl
  | cons change changes ih =>
    show ((family.apply change).applyAll changes).members.size = _
    rw [ih, size_apply, List.countP_cons]
    omega

theorem count_concat (changes : List Change) (change : Change) :
    count (changes ++ [change]) = count changes + if change.adds then 1 else 0 := by
  rw [count, count, List.countP_append, List.countP_singleton]
  omega

theorem member_of_size_le (h : family.members.size ≤ number) : family.member number = empty := by
  rw [member, Array.getElem?_eq_none h]
  rfl

/-- A new member is empty, as a number that was never given out. -/
theorem member_new (family : Family) (number : ℕ) :
    (family.apply .new).member number = family.member number := by
  rw [apply, member, member, Array.getElem?_push]
  split
  · rename_i heq
    rw [Array.getElem?_eq_none heq.ge]
    rfl
  · rfl

theorem member_snapshot (family : Family) (source number : ℕ) :
    (family.apply (.snapshot source)).member number =
      if number = family.members.size then family.member source else family.member number := by
  rw [apply, member, Array.getElem?_push]
  split <;> rfl

theorem member_define (family : Family) (target number : ℕ) (name : Name) (binding : Binding) :
    (family.apply (.define target name binding)).member number =
      if target = number ∧ number < family.members.size then (family.member number).define name binding
      else family.member number := by
  rw [apply, member, member, Array.getElem?_modify]
  by_cases htarget : target = number
  · by_cases hlt : number < family.members.size <;> simp [htarget, hlt]
  · simp [htarget]

/-- What one change does to a member that is there. -/
theorem member_apply (h : number < family.members.size) (change : Change) :
    (family.apply change).member number =
      (family.member number).defineAll (change.definition? number).toList := by
  cases change with
  | new => exact family.member_new number
  | snapshot source =>
    rw [member_snapshot, if_neg h.ne]
    rfl
  | define target name binding =>
    rw [member_define, Change.definition?]
    by_cases htarget : target = number
    · rw [if_pos ⟨htarget, h⟩, if_pos htarget]
      rfl
    · rw [if_neg fun hboth => htarget hboth.1, if_neg htarget]
      rfl

/-- What changes do to a member that is there: its own definitions, and nothing else. -/
theorem member_applyAll (h : number < family.members.size) (changes : List Change) :
    (family.applyAll changes).member number =
      (family.member number).defineAll (definitionsOn number changes) := by
  induction changes generalizing family with
  | nil => rfl
  | cons change changes ih =>
    have hsize := family.size_apply change
    show ((family.apply change).applyAll changes).member number = _
    rw [ih (by omega), member_apply h, definitionsOn, definitionsOn, List.filterMap_cons]
    cases change.definition? number <;> rfl

theorem applyAll_append (family : Family) (before after : List Change) :
    family.applyAll (before ++ after) = (family.applyAll before).applyAll after :=
  List.foldl_append

theorem size_start (changes : List Change) :
    (({} : Family).applyAll changes).members.size = count changes := by
  rw [size_applyAll, count, Nat.add_comm]
  rfl

/-! ### Every member reflects its history -/

/-- A member that a change adds goes on with its own definitions. -/
theorem reflects_added {past : List (Name × Binding)} (hadds : change.adds = true)
    (h : (((({} : Family).applyAll before).apply change).member (count before)).Reflects past)
    (after : List Change) :
    ((({} : Family).applyAll (before ++ change :: after)).member (count before)).Reflects
      (past ++ definitionsOn (count before) after) := by
  have hsize : count before < ((({} : Family).applyAll before).apply change).members.size := by
    rw [size_apply, size_start, if_pos hadds]
    omega
  rw [applyAll_append]
  show ((((({} : Family).applyAll before).apply change).applyAll after).member _).Reflects _
  rw [member_applyAll hsize]
  exact h.defineAll _

theorem History.reflects (h : History changes number history) :
    ((({} : Family).applyAll changes).member number).Reflects history := by
  induction h with
  | first changes =>
    rw [member_applyAll (by decide)]
    exact reflects_empty.defineAll _
  | new before after =>
    rw [← List.nil_append (definitionsOn _ after)]
    apply reflects_added rfl _ after
    rw [member_new, member_of_size_le (size_start before).le]
    exact reflects_empty
  | @snapshot before source past _ after ih =>
    apply reflects_added rfl _ after
    rw [member_snapshot, if_pos (size_start before).symm]
    exact ih
  | @absent changes number habsent =>
    rw [member_of_size_le ((size_start changes).trans_le habsent)]
    exact reflects_empty

/-! ### Every member has one history -/

/-- A member that is there goes through one change more. -/
theorem History.concat (h : History changes number history) (hlt : number < count changes)
    (change : Change) :
    History (changes ++ [change]) number (history ++ (change.definition? number).toList) := by
  have hlast : ∀ changes, definitionsOn number (changes ++ [change]) =
      definitionsOn number changes ++ (change.definition? number).toList := by
    intro changes
    rw [definitionsOn, definitionsOn, List.filterMap_append]
    cases hd : change.definition? number <;> simp [hd]
  cases h with
  | first _ =>
    rw [← hlast]
    exact .first _
  | new before after =>
    rw [← hlast, List.append_assoc, List.cons_append]
    exact .new before _
  | snapshot hsource after =>
    rw [List.append_assoc, List.append_assoc, List.cons_append, ← hlast]
    exact .snapshot hsource _
  | absent habsent => omega

theorem exists_history (changes : List Change) (number : ℕ) :
    ∃ history, History changes number history := by
  induction changes using List.reverseRecOn generalizing number with
  | nil =>
    cases number with
    | zero => exact ⟨_, .first []⟩
    | succ number => exact ⟨_, .absent (by simp [count])⟩
  | append_singleton changes change ih =>
    by_cases hlt : number < count changes
    · obtain ⟨history, hhistory⟩ := ih number
      exact ⟨_, hhistory.concat hlt change⟩
    · by_cases hnew : number = count changes
      · rw [hnew]
        cases change with
        | new => exact ⟨_, .new changes []⟩
        | snapshot source =>
          obtain ⟨past, hpast⟩ := ih source
          exact ⟨_, .snapshot hpast []⟩
        | define target name binding => exact ⟨_, .absent (by rw [count_concat]; simp [Change.adds])⟩
      · refine ⟨_, .absent ?_⟩
        rw [count_concat]
        split <;> omega

/-- No two changes give out the same number. -/
theorem split_unique {before after first last : List Change} {change other : Change}
    (h : before ++ change :: after = first ++ other :: last) (hadds : change.adds = true)
    (hother : other.adds = true) (hcount : count before = count first) :
    before = first ∧ change = other ∧ after = last := by
  rcases List.append_eq_append_iff.1 h with ⟨middle, rfl, hmiddle⟩ | ⟨middle, rfl, hmiddle⟩
  · cases middle with
    | nil =>
      rw [List.append_nil]
      exact ⟨rfl, List.cons_eq_cons.1 hmiddle⟩
    | cons between middle =>
      obtain ⟨rfl, -⟩ := List.cons_eq_cons.1 hmiddle
      simp [count, hadds] at hcount
  · cases middle with
    | nil =>
      obtain ⟨rfl, rfl⟩ := List.cons_eq_cons.1 hmiddle
      simp
    | cons between middle =>
      obtain ⟨rfl, -⟩ := List.cons_eq_cons.1 hmiddle
      simp [count, hother] at hcount

theorem count_lt_of_split (hadds : change.adds = true) :
    count before < count (before ++ change :: after) := by
  simp [count, hadds]

theorem History.eq_of_first (h : History changes 0 history) : history = definitionsOn 0 changes := by
  generalize hzero : 0 = number at h
  cases h with
  | first _ => rfl
  | new _ _ | snapshot _ _ => simp [count] at hzero
  | absent habsent =>
    have hpos : 0 < count changes := Nat.succ_pos _
    omega

theorem History.eq_of_absent (h : History changes number history) (habsent : count changes ≤ number) :
    history = [] := by
  cases h with
  | first _ => simp [count] at habsent
  | new before after | @snapshot before _ _ _ after =>
    exact absurd (count_lt_of_split rfl) (Nat.not_lt.2 habsent)
  | absent _ => rfl

/-- The history of a member that a change adds is the one that the change begins with, and then its
own. -/
theorem History.cases_of_added (h : History (before ++ change :: after) (count before) history)
    (hadds : change.adds = true) :
    change = .new ∧ history = definitionsOn (count before) after ∨
      ∃ source past, change = .snapshot source ∧ History before source past ∧
        history = past ++ definitionsOn (count before) after := by
  generalize hchanges : before ++ change :: after = changes at h
  generalize hnumber : count before = number at h
  cases h with
  | first _ => simp [count] at hnumber
  | new first last =>
    obtain ⟨rfl, rfl, rfl⟩ := split_unique hchanges hadds rfl hnumber
    exact Or.inl ⟨rfl, rfl⟩
  | @snapshot first source past hsource last =>
    obtain ⟨rfl, rfl, rfl⟩ := split_unique hchanges hadds rfl hnumber
    exact Or.inr ⟨source, past, rfl, hsource, rfl⟩
  | absent habsent =>
    rw [← hchanges, ← hnumber] at habsent
    exact absurd (count_lt_of_split hadds) (Nat.not_lt.2 habsent)

theorem History.unique {other : List (Name × Binding)} (h : History changes number history)
    (h' : History changes number other) : history = other := by
  induction h generalizing other with
  | first _ => exact h'.eq_of_first.symm
  | new _ _ =>
    obtain ⟨-, hother⟩ | ⟨source, past, hchange, -⟩ := h'.cases_of_added rfl
    · exact hother.symm
    · cases hchange
  | snapshot _ _ ih =>
    obtain ⟨hchange, -⟩ | ⟨source, past, hchange, hsource, hother⟩ := h'.cases_of_added rfl
    · cases hchange
    · cases hchange
      rw [ih hsource, hother]
  | absent habsent => exact (h'.eq_of_absent habsent).symm

/-! ### Who sees a definition -/

/-- From `size` members on, the changes have led from `origin` to `number`: it is this member, or a
snapshot that was taken of one that they have led to. -/
inductive Descends (size origin : ℕ) : List Change → ℕ → Prop
  | self (changes : List Change) : Descends size origin changes origin
  | snapshot {before : List Change} {source : ℕ} (h : Descends size origin before source)
      (after : List Change) :
      Descends size origin (before ++ .snapshot source :: after) (size + before.countP Change.adds)

variable {size origin : ℕ}

theorem Descends.concat (h : Descends size origin changes number) (change : Change) :
    Descends size origin (changes ++ [change]) number := by
  cases h with
  | self _ => exact .self _
  | snapshot hsource after =>
    rw [List.append_assoc, List.cons_append]
    exact .snapshot hsource _

/-- Of the members that were there before, it is this one only. -/
theorem Descends.eq_of_lt (h : Descends size origin changes number) (hlt : number < size) :
    number = origin := by
  cases h with
  | self _ => rfl
  | snapshot _ _ => omega

/-- Two families that differ in one member differ in its descendants only, whatever is done to both. -/
theorem member_eq_of_not_descends {other : Family}
    (hsize : other.members.size = family.members.size)
    (h : ∀ number, number ≠ origin → other.member number = family.member number)
    (changes : List Change) (number : ℕ)
    (hnot : ¬ Descends family.members.size origin changes number) :
    (other.applyAll changes).member number = (family.applyAll changes).member number := by
  induction changes using List.reverseRecOn generalizing number with
  | nil => exact h number fun heq => hnot (heq ▸ .self [])
  | append_singleton changes change ih =>
    have hbefore := ih number fun hdescends => hnot (hdescends.concat change)
    have hsizes : (other.applyAll changes).members.size = (family.applyAll changes).members.size := by
      rw [size_applyAll, size_applyAll, hsize]
    rw [applyAll_append, applyAll_append]
    show ((other.applyAll changes).apply change).member number =
      ((family.applyAll changes).apply change).member number
    cases change with
    | new => rw [member_new, member_new, hbefore]
    | snapshot source =>
      rw [member_snapshot, member_snapshot, hsizes]
      split
      · rename_i hnumber
        apply ih source
        intro hsource
        rw [hnumber, size_applyAll] at hnot
        exact hnot (.snapshot hsource [])
      · exact hbefore
    | define target name binding => rw [member_define, member_define, hsizes, hbefore]

/-- A definition is seen by nothing but the descendants of the member it is made on. -/
theorem member_of_not_descends {target : ℕ} {name : Name} {binding : Binding}
    (hnot : ¬ Descends (count before) target after number) :
    (({} : Family).applyAll (before ++ .define target name binding :: after)).member number =
      (({} : Family).applyAll (before ++ after)).member number := by
  have hsize := size_start before
  rw [← hsize] at hnot
  rw [applyAll_append, applyAll_append]
  apply member_eq_of_not_descends _ _ after number hnot
  · rw [size_apply]
    rfl
  · intro other hne
    rw [member_define, if_neg fun hboth => hne hboth.1.symm]

/-- **Every environment reflects its own history**, and nothing else, however new environments,
snapshots and definitions follow each other.

* A member has exactly one history: its own definitions, after those of its source up to the moment of
  the snapshot if it is one. A name is bound by its latest definition there, a name without a definition
  is unbound, and the bindings are as many as the different names.
* A definition is seen by the member that it is made on and by the snapshots that are taken from there
  on, directly or by way of others. No other member that is there by then is ever different for it, be it
  an ancestor, a sibling or a snapshot taken before; nor is a sibling that is added later. -/
theorem applyAll_reflects_history (changes : List Change) (number : ℕ) :
    (∃ history, History changes number history ∧
      (∀ other, History changes number other → other = history) ∧
      ((({} : Family).applyAll changes).member number).Reflects history) ∧
    ∀ before target name binding after, changes = before ++ .define target name binding :: after →
      (number < count before → number ≠ target →
        ¬ Descends (count before) target after number) ∧
      (¬ Descends (count before) target after number →
        (({} : Family).applyAll changes).member number =
          (({} : Family).applyAll (before ++ after)).member number) := by
  constructor
  · obtain ⟨history, hhistory⟩ := exists_history changes number
    exact ⟨history, hhistory, fun other hother => hother.unique hhistory, hhistory.reflects⟩
  · intro before target name binding after hchanges
    subst hchanges
    refine ⟨?_, member_of_not_descends⟩
    intro hlt hne hdescends
    exact hne (hdescends.eq_of_lt hlt)

/-- Members 1 and 2 are snapshots of member 0, with definitions on both sides of them. Member 3 is one of
member 1. -/
example :
    let family := ({} : Family).applyAll [.define 0 ⟨1⟩ (.function ⟨0⟩), .snapshot 0,
      .define 1 ⟨1⟩ (.value none), .snapshot 0, .define 0 ⟨2⟩ (.value none), .snapshot 1]
    (family.member 0).size = 2 ∧ (family.member 2).lookup ⟨1⟩ = some (.function ⟨0⟩) ∧
      (family.member 2).lookup ⟨2⟩ = none ∧ (family.member 3).lookup ⟨1⟩ = some (.value none) := by
  decide

end Family

end Reckon.Environment
