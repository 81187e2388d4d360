import Mathlib.Data.Finset.Card
import Mathlib.Data.Finset.Dedup
import Reckon.Proofs.Growth

/-!
# Names and texts are inverse

An interner keeps its texts twice, by name and by text. This file follows it through any sequence of
requests, in which new texts, known ones and the empty one come in any order, and shows that the two
directions never drift apart.

* `Interner.Request`, `Interner.handleAll`: texts to be interned and texts to be looked for, with the
  answer to each of them.
* `Interner.grows_handleAll`: requests leave every text under its name.
* `Interner.text_mem_handleAll`: the texts are those of the start and those that were interned since.
* `Interner.Corresponds`: what the answers to a sequence of requests have to do with each other and
  with the interner that is left. `corresponds_handleAll`: they always do.
-/

namespace Reckon.Interner

variable {interner : Interner} {name other : Name} {text : String}

/-! ### Requests -/

/-- What can be asked of an interner. -/
inductive Request where
  /-- The name of a text, new if need be. -/
  | intern (text : String)
  /-- The name of a text, if it has one. -/
  | find (text : String)
deriving DecidableEq, Repr

/-- The text that a request interns. -/
def Request.interned? : Request → Option String
  | .intern text => some text
  | .find _ => none

/-- The answer to a request, and the interner after it. -/
def handle (interner : Interner) : Request → Option Name × Interner
  | .intern text =>
    let (name, next) := interner.intern text
    (some name, next)
  | .find text => (interner.find? text, interner)

/-- The answers to requests in order, and the interner after them. -/
def handleAll (interner : Interner) : List Request → List (Option Name) × Interner
  | [] => ([], interner)
  | request :: requests =>
    let (answer, next) := interner.handle request
    let (answers, last) := next.handleAll requests
    (answer :: answers, last)

theorem handleAll_append (interner : Interner) (requests more : List Request) :
    (interner.handleAll (requests ++ more)).2 =
      ((interner.handleAll requests).2.handleAll more).2 := by
  induction requests generalizing interner with
  | nil => rfl
  | cons request requests ih => exact ih (interner.handle request).2

/-- A request is answered by the interner that the requests before it leave. -/
theorem getElem?_handleAll (interner : Interner) (requests : List Request) (i : ℕ) :
    (interner.handleAll requests).1[i]? = requests[i]?.map fun request =>
      ((interner.handleAll (requests.take i)).2.handle request).1 := by
  induction requests generalizing interner i with
  | nil => simp [handleAll]
  | cons request requests ih =>
    cases i with
    | zero => rfl
    | succ i => exact ih (interner.handle request).2 i

/-- Looking for a text leaves no trace. -/
theorem handleAll_eq_internAll (interner : Interner) (requests : List Request) :
    (interner.handleAll requests).2 =
      (interner.internAll (requests.filterMap Request.interned?)).2 := by
  induction requests generalizing interner with
  | nil => rfl
  | cons request requests ih =>
    cases request with
    | intern text => exact ih (interner.intern text).2
    | find text => exact ih interner

/-! ### Texts stay with their names -/

theorem grows_handleAll (interner : Interner) (requests : List Request) :
    Grows interner.texts (interner.handleAll requests).2.texts := by
  rw [handleAll_eq_internAll]
  exact interner.grows_internAll _

theorem grows_take (interner : Interner) (requests : List Request) {i j : ℕ} (h : i ≤ j) :
    Grows (interner.handleAll (requests.take i)).2.texts
      (interner.handleAll (requests.take j)).2.texts := by
  have hprefix : requests.take i <+: requests.take j := List.take_prefix_take_left h
  obtain ⟨more, hmore⟩ := hprefix
  rw [← hmore, handleAll_append]
  exact grows_handleAll _ more

/-- A text has one name. -/
theorem name_unique (h : interner.texts[name.index]? = some text)
    (h' : interner.texts[other.index]? = some text) : name = other := by
  have hfind := find?_eq_some.2 h
  have hother := find?_eq_some.2 h'
  rw [hfind] at hother
  exact Option.some.inj hother

/-- The name that a text was given stands for it after every later request. -/
theorem getElem?_of_interned {requests : List Request} {i j : ℕ}
    (hrequest : requests[i]? = some (.intern text))
    (hanswer : (interner.handleAll requests).1[i]? = some (some name)) (hlt : i < j) :
    (interner.handleAll (requests.take j)).2.texts[name.index]? = some text := by
  rw [getElem?_handleAll, hrequest] at hanswer
  have hname : ((interner.handleAll (requests.take i)).2.intern text).1 = name := by
    simpa [handle] using hanswer
  have hnext : (interner.handleAll (requests.take (i + 1))).2 =
      ((interner.handleAll (requests.take i)).2.intern text).2 := by
    rw [List.take_add_one, hrequest, handleAll_append]
    rfl
  have hget := getElem?_intern (interner.handleAll (requests.take i)).2 text
  rw [hname, ← hnext] at hget
  exact interner.grows_take requests (show i + 1 ≤ j by omega) hget

theorem exists_answer (interner : Interner) {requests : List Request} {i : ℕ}
    (hrequest : requests[i]? = some (.intern text)) :
    ∃ name, (interner.handleAll requests).1[i]? = some (some name) := by
  rw [getElem?_handleAll, hrequest]
  exact ⟨_, rfl⟩

/-! ### Which texts there are -/

theorem mem_texts_intern (interner : Interner) (text other : String) :
    other ∈ (interner.intern text).2.texts ↔ other ∈ interner.texts ∨ other = text := by
  cases h : interner.find? text with
  | some name =>
    rw [intern_of_some h]
    have hmem : text ∈ interner.texts := Array.mem_of_getElem? (find?_eq_some.1 h)
    constructor
    · exact Or.inl
    · intro hother
      by_cases heq : other = text
      · rw [heq]
        exact hmem
      · simpa [heq] using hother
  | none =>
    rw [intern_of_none h]
    simp [push]

theorem text_mem_handleAll (interner : Interner) (requests : List Request) (text : String) :
    text ∈ (interner.handleAll requests).2.texts ↔
      text ∈ interner.texts ∨ .intern text ∈ requests := by
  induction requests generalizing interner with
  | nil => simp [handleAll]
  | cons request requests ih =>
    have htail := ih (interner.handle request).2
    cases request with
    | intern first =>
      show text ∈ ((interner.intern first).2.handleAll requests).2.texts ↔ _
      rw [show (interner.handle (.intern first)).2 = (interner.intern first).2 from rfl] at htail
      rw [htail, mem_texts_intern]
      simp [or_assoc]
    | find first =>
      show text ∈ (interner.handleAll requests).2.texts ↔ _
      rw [show (interner.handle (.find first)).2 = interner from rfl] at htail
      rw [htail]
      simp

theorem mem_texts_new (text : String) : text ∈ new.texts ↔ text = "" := by
  simp [new]

theorem intern_mem_iff {requests : List Request} :
    .intern text ∈ requests ↔ text ∈ requests.filterMap Request.interned? := by
  rw [List.mem_filterMap]
  constructor
  · intro h
    exact ⟨_, h, rfl⟩
  · intro h
    obtain ⟨request, hrequest, htext⟩ := h
    cases request with
    | intern other =>
      cases htext
      exact hrequest
    | find other => cases htext

theorem nodup_texts (interner : Interner) : interner.texts.toList.Nodup := by
  rw [List.nodup_iff_getElem?_ne_getElem?]
  intro i j hij hj heq
  have hget : interner.texts[j]? = some interner.texts[j] := Array.getElem?_eq_getElem hj
  rw [Array.getElem?_toList, Array.getElem?_toList, hget] at heq
  have hname := @name_unique interner ⟨i⟩ ⟨j⟩ _ heq hget
  rw [Name.mk.injEq] at hname
  omega

/-- Each text is there once, so that they are as many as the different ones. -/
theorem size_handleAll (requests : List Request) :
    (new.handleAll requests).2.size =
      ((requests.filterMap Request.interned?).toFinset.erase "").card + 1 := by
  have htexts : (new.handleAll requests).2.texts.toList.toFinset =
      insert "" ((requests.filterMap Request.interned?).toFinset.erase "") := by
    ext text
    rw [List.mem_toFinset, Array.mem_toList_iff, text_mem_handleAll, mem_texts_new,
      intern_mem_iff]
    simp only [Finset.mem_insert, Finset.mem_erase, List.mem_toFinset]
    by_cases hempty : text = "" <;> simp [hempty]
  have hcard := List.toFinset_card_of_nodup (nodup_texts (new.handleAll requests).2)
  rw [htexts, Finset.card_insert_of_notMem (by simp)] at hcard
  exact hcard.symm

/-- What has a name, by its index. -/
theorem exists_find?_iff (interner : Interner) (name : Name) :
    (∃ text, interner.find? text = some name) ↔ name.index < interner.size := by
  constructor
  · intro h
    obtain ⟨text, hfind⟩ := h
    exact (Array.getElem?_eq_some_iff.1 (find?_eq_some.1 hfind)).1
  · intro h
    exact ⟨_, find?_eq_some.2 (Array.getElem?_eq_getElem h)⟩

theorem find?_text (h : name.index < interner.size) :
    interner.find? (interner.text name) = some name := by
  have hget : interner.texts[name.index]? = some interner.texts[name.index] :=
    Array.getElem?_eq_getElem h
  rw [find?_eq_some, Interner.text, hget]
  rfl

theorem text_of_size_le (h : interner.size ≤ name.index) : interner.text name = "" := by
  have hget : interner.texts[name.index]? = none := Array.getElem?_eq_none_iff.2 h
  rw [Interner.text, hget]
  rfl

/-- A text is found if it is the empty one or was interned before, under the name that it was given
then. -/
theorem find?_handleAll_iff (requests : List Request) (i : ℕ) :
    (new.handleAll (requests.take i)).2.find? text = some name ↔
      text = "" ∧ name = .empty ∨
        ∃ j < i, requests[j]? = some (.intern text) ∧
          (new.handleAll requests).1[j]? = some (some name) := by
  have hzero := (new.handleAll (requests.take i)).2.texts_zero
  rw [find?_eq_some]
  constructor
  · intro hget
    have hmem := (text_mem_handleAll new _ text).1 (Array.mem_of_getElem? hget)
    rw [mem_texts_new] at hmem
    by_cases hempty : text = ""
    · rw [hempty] at hget
      exact Or.inl ⟨hempty, @name_unique _ name .empty "" hget hzero⟩
    · have hrequest : .intern text ∈ requests.take i := by simpa [hempty] using hmem
      obtain ⟨j, hj⟩ := List.mem_iff_getElem?.1 hrequest
      rw [List.getElem?_take] at hj
      split at hj
      · rename_i hlt
        obtain ⟨given, hgiven⟩ := exists_answer new hj
        have heq := name_unique (getElem?_of_interned hj hgiven hlt) hget
        rw [heq] at hgiven
        exact Or.inr ⟨j, hlt, hj, hgiven⟩
      · cases hj
  · intro h
    obtain ⟨htext, hname⟩ | ⟨j, hlt, hrequest, hanswer⟩ := h
    · rw [htext, hname]
      exact hzero
    · exact getElem?_of_interned hrequest hanswer hlt

/-! ### All together -/

/-- The answers to requests and the interner after them fit together. -/
structure Corresponds (requests : List Request) (answers : List (Option Name))
    (interner : Interner) : Prop where
  /-- The names in use are those below the number of texts. -/
  name_iff : ∀ name : Name, (∃ text, interner.find? text = some name) ↔ name.index < interner.size
  /-- A text that is interned gets a name, from which it can be read at once and ever after. -/
  read_back : ∀ (i : ℕ) (text : String), requests[i]? = some (.intern text) →
    ∃ name, answers[i]? = some (some name) ∧
      ∀ j, i < j → (new.handleAll (requests.take j)).2.text name = text
  /-- Whenever two texts are interned, they get the same name exactly if they are the same. -/
  name_eq_iff : ∀ (i j : ℕ) (s t : String), requests[i]? = some (.intern s) →
    requests[j]? = some (.intern t) → (answers[i]? = answers[j]? ↔ s = t)
  /-- A text that is looked for is found if it is the empty one or was interned before, under the
  name that it was given then. -/
  found_iff : ∀ (i : ℕ) (text : String) (name : Name), requests[i]? = some (.find text) →
    (answers[i]? = some (some name) ↔
      text = "" ∧ name = .empty ∨
        ∃ j < i, requests[j]? = some (.intern text) ∧ answers[j]? = some (some name))
  /-- Looking for a text changes nothing: without these requests the interner is the same. -/
  unchanged : interner = (new.internAll (requests.filterMap Request.interned?)).2
  /-- The text of a name in use is found under this name. -/
  find_text : ∀ name : Name, name.index < interner.size →
    interner.find? (interner.text name) = some name
  /-- Other names stand for the empty text. -/
  text_beyond : ∀ name : Name, interner.size ≤ name.index → interner.text name = ""
  /-- There are as many texts as different ones were interned, and the empty one. -/
  size_eq : interner.size = ((requests.filterMap Request.interned?).toFinset.erase "").card + 1

/-- **Names and texts are inverse after every sequence of requests.** -/
theorem corresponds_handleAll (requests : List Request) :
    Corresponds requests (new.handleAll requests).1 (new.handleAll requests).2 where
  name_iff := exists_find?_iff _
  read_back := by
    intro i text hrequest
    obtain ⟨name, hanswer⟩ := exists_answer new hrequest
    refine ⟨name, hanswer, ?_⟩
    intro j hlt
    rw [Interner.text, getElem?_of_interned hrequest hanswer hlt]
    rfl
  name_eq_iff := by
    intro i j s t hs ht
    obtain ⟨name, hname⟩ := exists_answer new hs
    obtain ⟨other, hother⟩ := exists_answer new ht
    -- a moment at which both texts have their names
    have hgets := getElem?_of_interned hs hname (show i < i + j + 1 by omega)
    have hgett := getElem?_of_interned ht hother (show j < i + j + 1 by omega)
    rw [hname, hother]
    constructor
    · intro heq
      cases heq
      rw [hgets] at hgett
      exact Option.some.inj hgett
    · intro heq
      cases heq
      rw [name_unique hgets hgett]
  found_iff := by
    intro i text name hrequest
    rw [← find?_handleAll_iff, getElem?_handleAll, hrequest]
    exact Option.some_inj
  unchanged := handleAll_eq_internAll new requests
  find_text := fun _ => find?_text
  text_beyond := fun _ => text_of_size_le
  size_eq := size_handleAll requests

end Reckon.Interner
