import Reckon.Node
import Std.Data.TreeMap

/-!
# Interned texts

An interner gives each text a name, the same one each time, so that later stages compare names by
index alone. Names are given out densely from zero, and zero is the empty text.

* `Interner.intern`: the name of a text, new if need be.
* `Interner.find?`: the name of a text that was interned before.
* `Interner.text`: the text of a name, empty for a name that was never given out.

The table of names is kept beside the texts for speed only: by the field `index_iff` it is their
inverse, so that no text has two names and no name two texts.

Indices are natural numbers here, so that there is a name for every further text. Where indices have
32 bits, `Interner.intern` has to refuse a new text after `2 ^ 32` of them; this limit is left out.
-/

namespace Reckon

/-- The texts interned so far, and their names. -/
structure Interner where
  /-- The text of each name, by index. -/
  texts : Array String
  /-- The name of each text. -/
  index : Std.TreeMap String Name
  /-- The empty text comes first. -/
  texts_zero : texts[0]? = some ""
  /-- The two directions agree. -/
  index_iff : ∀ (text : String) (name : Name),
    index[text]? = some name ↔ texts[name.index]? = some text

namespace Interner

/-- An interner that holds the empty text only. -/
def new : Interner where
  texts := #[""]
  index := (∅ : Std.TreeMap String Name).insert "" .empty
  texts_zero := rfl
  index_iff text name := by
    obtain ⟨n⟩ := name
    rw [Std.TreeMap.getElem?_insert]
    cases n <;> grind [Name.empty]

instance : Inhabited Interner := ⟨new⟩

/-- The name of a text that was interned before. -/
def find? (interner : Interner) (text : String) : Option Name :=
  interner.index[text]?

/-- The text of a name; empty if no text has this name. -/
def text (interner : Interner) (name : Name) : String :=
  interner.texts[name.index]?.getD ""

/-- The number of texts, the empty one included. -/
def size (interner : Interner) : Nat :=
  interner.texts.size

/-- Whether there are no texts, which is never so. -/
def isEmpty (interner : Interner) : Bool :=
  interner.texts.isEmpty

theorem find?_eq_some {interner : Interner} {text : String} {name : Name} :
    interner.find? text = some name ↔ interner.texts[name.index]? = some text :=
  interner.index_iff text name

/-- Adds a text that has no name yet, under the next index. -/
def push (interner : Interner) (text : String) (h : interner.find? text = none) : Interner :=
  let next : Name := ⟨interner.texts.size⟩
  { texts := interner.texts.push text
    index := interner.index.insert text next
    texts_zero := by
      have := interner.texts_zero
      grind
    index_iff := fun other name => by
      obtain ⟨n⟩ := name
      have := @find?_eq_some interner text ⟨n⟩
      have := interner.index_iff other ⟨n⟩
      grind }

/-- The name of a text, and the interner that holds it. -/
def intern (interner : Interner) (text : String) : Name × Interner :=
  match h : interner.find? text with
  | some name => (name, interner)
  | none => (⟨interner.size⟩, interner.push text h)

theorem intern_of_some {interner : Interner} {text : String} {name : Name}
    (h : interner.find? text = some name) : interner.intern text = (name, interner) := by
  unfold intern
  split <;> simp_all

theorem intern_of_none {interner : Interner} {text : String} (h : interner.find? text = none) :
    interner.intern text = (⟨interner.size⟩, interner.push text h) := by
  unfold intern
  split <;> simp_all

/-- A text can be read back from the name it was given. -/
theorem text_intern (interner : Interner) (text : String) :
    (interner.intern text).2.text (interner.intern text).1 = text := by
  cases h : interner.find? text with
  | some name => simp [intern_of_some h, Interner.text, find?_eq_some.1 h]
  | none => simp [intern_of_none h, Interner.text, push, size]

end Interner

end Reckon
