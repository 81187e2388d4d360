/-!
# Characters with an uppercase form

A character has an uppercase form if its full uppercase mapping in the Unicode standard is any text
but the character itself. This is so for most small letters, also for those whose uppercase form is
several characters (`ß` becomes `SS`), and for titlecase letters, small roman numerals and circled
small letters. Versions of the standard add to them; these are the ones of version 14. What is proved
about validation holds for any others as well, for it takes them as a parameter.

* `Uppercase.runs`: the characters concerned, as runs of equal step.
* `Uppercase.changes`: whether a character is one of them.
-/

namespace Reckon.Uppercase

/-- The code points `first`, `first + step`, `first + 2 · step` and so on up to `last`. -/
structure Run where
  first : Nat
  last : Nat
  /-- The distance from one to the next. -/
  step : Nat
deriving DecidableEq, Repr

/-- Whether a code point belongs to the run. -/
def Run.contains (run : Run) (code : Nat) : Bool :=
  run.first ≤ code && code ≤ run.last && (code - run.first) % run.step == 0

/-- The characters that differ from their full uppercase mapping, in ascending order. -/
def runs : List Run :=
  [⟨0x61, 0x7A, 1⟩, ⟨0xB5, 0xB5, 1⟩, ⟨0xDF, 0xF6, 1⟩, ⟨0xF8, 0xFF, 1⟩, ⟨0x101, 0x137, 2⟩,
   ⟨0x13A, 0x148, 2⟩, ⟨0x149, 0x177, 2⟩, ⟨0x17A, 0x17E, 2⟩, ⟨0x17F, 0x180, 1⟩, ⟨0x183, 0x185, 2⟩,
   ⟨0x188, 0x188, 1⟩, ⟨0x18C, 0x18C, 1⟩, ⟨0x192, 0x192, 1⟩, ⟨0x195, 0x195, 1⟩, ⟨0x199, 0x19A, 1⟩,
   ⟨0x19E, 0x19E, 1⟩, ⟨0x1A1, 0x1A5, 2⟩, ⟨0x1A8, 0x1A8, 1⟩, ⟨0x1AD, 0x1AD, 1⟩, ⟨0x1B0, 0x1B0, 1⟩,
   ⟨0x1B4, 0x1B6, 2⟩, ⟨0x1B9, 0x1B9, 1⟩, ⟨0x1BD, 0x1BF, 2⟩, ⟨0x1C5, 0x1C6, 1⟩, ⟨0x1C8, 0x1C9, 1⟩,
   ⟨0x1CB, 0x1CC, 1⟩, ⟨0x1CE, 0x1DC, 2⟩, ⟨0x1DD, 0x1EF, 2⟩, ⟨0x1F0, 0x1F2, 2⟩, ⟨0x1F3, 0x1F5, 2⟩,
   ⟨0x1F9, 0x21F, 2⟩, ⟨0x223, 0x233, 2⟩, ⟨0x23C, 0x23C, 1⟩, ⟨0x23F, 0x240, 1⟩, ⟨0x242, 0x242, 1⟩,
   ⟨0x247, 0x24F, 2⟩, ⟨0x250, 0x254, 1⟩, ⟨0x256, 0x257, 1⟩, ⟨0x259, 0x25B, 2⟩, ⟨0x25C, 0x25C, 1⟩,
   ⟨0x260, 0x261, 1⟩, ⟨0x263, 0x265, 2⟩, ⟨0x266, 0x268, 2⟩, ⟨0x269, 0x26C, 1⟩, ⟨0x26F, 0x271, 2⟩,
   ⟨0x272, 0x272, 1⟩, ⟨0x275, 0x275, 1⟩, ⟨0x27D, 0x27D, 1⟩, ⟨0x280, 0x282, 2⟩, ⟨0x283, 0x283, 1⟩,
   ⟨0x287, 0x28C, 1⟩, ⟨0x292, 0x292, 1⟩, ⟨0x29D, 0x29E, 1⟩, ⟨0x345, 0x345, 1⟩, ⟨0x371, 0x373, 2⟩,
   ⟨0x377, 0x377, 1⟩, ⟨0x37B, 0x37D, 1⟩, ⟨0x390, 0x390, 1⟩, ⟨0x3AC, 0x3CE, 1⟩, ⟨0x3D0, 0x3D1, 1⟩,
   ⟨0x3D5, 0x3D7, 1⟩, ⟨0x3D9, 0x3EF, 2⟩, ⟨0x3F0, 0x3F3, 1⟩, ⟨0x3F5, 0x3F5, 1⟩, ⟨0x3F8, 0x3F8, 1⟩,
   ⟨0x3FB, 0x3FB, 1⟩, ⟨0x430, 0x45F, 1⟩, ⟨0x461, 0x481, 2⟩, ⟨0x48B, 0x4BF, 2⟩, ⟨0x4C2, 0x4CE, 2⟩,
   ⟨0x4CF, 0x52F, 2⟩, ⟨0x561, 0x587, 1⟩, ⟨0x10D0, 0x10FA, 1⟩, ⟨0x10FD, 0x10FF, 1⟩,
   ⟨0x13F8, 0x13FD, 1⟩, ⟨0x1C80, 0x1C88, 1⟩, ⟨0x1D79, 0x1D79, 1⟩, ⟨0x1D7D, 0x1D7D, 1⟩,
   ⟨0x1D8E, 0x1D8E, 1⟩, ⟨0x1E01, 0x1E95, 2⟩, ⟨0x1E96, 0x1E9B, 1⟩, ⟨0x1EA1, 0x1EFF, 2⟩,
   ⟨0x1F00, 0x1F07, 1⟩, ⟨0x1F10, 0x1F15, 1⟩, ⟨0x1F20, 0x1F27, 1⟩, ⟨0x1F30, 0x1F37, 1⟩,
   ⟨0x1F40, 0x1F45, 1⟩, ⟨0x1F50, 0x1F57, 1⟩, ⟨0x1F60, 0x1F67, 1⟩, ⟨0x1F70, 0x1F7D, 1⟩,
   ⟨0x1F80, 0x1FB4, 1⟩, ⟨0x1FB6, 0x1FB7, 1⟩, ⟨0x1FBC, 0x1FBE, 2⟩, ⟨0x1FC2, 0x1FC4, 1⟩,
   ⟨0x1FC6, 0x1FC7, 1⟩, ⟨0x1FCC, 0x1FCC, 1⟩, ⟨0x1FD0, 0x1FD3, 1⟩, ⟨0x1FD6, 0x1FD7, 1⟩,
   ⟨0x1FE0, 0x1FE7, 1⟩, ⟨0x1FF2, 0x1FF4, 1⟩, ⟨0x1FF6, 0x1FF7, 1⟩, ⟨0x1FFC, 0x1FFC, 1⟩,
   ⟨0x214E, 0x214E, 1⟩, ⟨0x2170, 0x217F, 1⟩, ⟨0x2184, 0x2184, 1⟩, ⟨0x24D0, 0x24E9, 1⟩,
   ⟨0x2C30, 0x2C5F, 1⟩, ⟨0x2C61, 0x2C61, 1⟩, ⟨0x2C65, 0x2C66, 1⟩, ⟨0x2C68, 0x2C6C, 2⟩,
   ⟨0x2C73, 0x2C73, 1⟩, ⟨0x2C76, 0x2C76, 1⟩, ⟨0x2C81, 0x2CE3, 2⟩, ⟨0x2CEC, 0x2CEE, 2⟩,
   ⟨0x2CF3, 0x2CF3, 1⟩, ⟨0x2D00, 0x2D25, 1⟩, ⟨0x2D27, 0x2D27, 1⟩, ⟨0x2D2D, 0x2D2D, 1⟩,
   ⟨0xA641, 0xA66D, 2⟩, ⟨0xA681, 0xA69B, 2⟩, ⟨0xA723, 0xA72F, 2⟩, ⟨0xA733, 0xA76F, 2⟩,
   ⟨0xA77A, 0xA77C, 2⟩, ⟨0xA77F, 0xA787, 2⟩, ⟨0xA78C, 0xA78C, 1⟩, ⟨0xA791, 0xA793, 2⟩,
   ⟨0xA794, 0xA794, 1⟩, ⟨0xA797, 0xA7A9, 2⟩, ⟨0xA7B5, 0xA7C3, 2⟩, ⟨0xA7C8, 0xA7CA, 2⟩,
   ⟨0xA7D1, 0xA7D1, 1⟩, ⟨0xA7D7, 0xA7D9, 2⟩, ⟨0xA7F6, 0xA7F6, 1⟩, ⟨0xAB53, 0xAB53, 1⟩,
   ⟨0xAB70, 0xABBF, 1⟩, ⟨0xFB00, 0xFB06, 1⟩, ⟨0xFB13, 0xFB17, 1⟩, ⟨0xFF41, 0xFF5A, 1⟩,
   ⟨0x10428, 0x1044F, 1⟩, ⟨0x104D8, 0x104FB, 1⟩, ⟨0x10597, 0x105A1, 1⟩, ⟨0x105A3, 0x105B1, 1⟩,
   ⟨0x105B3, 0x105B9, 1⟩, ⟨0x105BB, 0x105BC, 1⟩, ⟨0x10CC0, 0x10CF2, 1⟩, ⟨0x118C0, 0x118DF, 1⟩,
   ⟨0x16E60, 0x16E7F, 1⟩, ⟨0x1E922, 0x1E943, 1⟩]

/-- Whether a character differs from its full uppercase mapping. -/
def changes (c : Char) : Bool :=
  runs.any (·.contains c.toNat)

example : runs.length = 148 ∧ changes 'ß' = true ∧ changes 'É' = false ∧ changes '7' = false := by
  decide +kernel

example : runs.Pairwise (fun a b => a.last < b.first) := by
  decide +kernel

end Reckon.Uppercase
