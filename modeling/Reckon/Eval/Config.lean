/-!
# Configuration of an evaluation

How deep calls may nest, and what an error does to the rest of a pass.

* `Config` with its defaults.
* `Setting`: a change to a configuration; of several settings the later one wins.
-/

namespace Reckon

/-- What an error in one statement means for the others. -/
inductive ErrorPolicy where
  /-- The error ends the pass. -/
  | abortPass
  /-- The error is recorded, and the pass goes on. -/
  | perEvaluation
deriving DecidableEq, Repr

instance : Inhabited ErrorPolicy := ⟨.abortPass⟩

/-- How a document is evaluated. -/
structure Config where
  /-- The greatest number of calls nested in one another. -/
  maxCallDepth : Nat := 512
  errorPolicy : ErrorPolicy := .abortPass
deriving DecidableEq, Repr

instance : Inhabited Config := ⟨{}⟩

/-- A change to a configuration. -/
inductive Setting where
  /-- Takes over a whole configuration. -/
  | config (config : Config)
  | maxCallDepth (depth : Nat)
  | errorPolicy (policy : ErrorPolicy)
deriving DecidableEq, Repr

namespace Config

/-- The configuration after a change. -/
def apply (config : Config) : Setting → Config
  | .config other => other
  | .maxCallDepth depth => { config with maxCallDepth := depth }
  | .errorPolicy policy => { config with errorPolicy := policy }

/-- The default configuration after changes in order. -/
def ofSettings (settings : List Setting) : Config :=
  settings.foldl apply default

end Config

end Reckon
