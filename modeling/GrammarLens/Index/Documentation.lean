import GrammarLens.Table
import GrammarLens.Text

/-!
Contract: the documentation of defined names.

Owns: the table from names to documentation. A later documentation of a name replaces an
earlier one; a later definition without documentation does not.
-/

namespace GrammarLens

/-- Documentation by name. -/
structure DocumentationIndex where
  docs : Table Text Text
deriving DecidableEq, Repr

namespace DocumentationIndex

def empty : DocumentationIndex := ⟨Table.empty⟩

def add (index : DocumentationIndex) (name doc : Text) : DocumentationIndex :=
  ⟨index.docs.put name doc⟩

def lookup? (index : DocumentationIndex) (name : Text) : Option Text := index.docs.find? name

def contains (index : DocumentationIndex) (name : Text) : Bool := index.docs.contains name

end DocumentationIndex

end GrammarLens
