import GrammarLens.Table
import GrammarLens.Token

/-!
Contract: tags. A tag is a hash followed by tag characters.

Owns: the distinct tags of a text, in order of first occurrence.
-/

namespace GrammarLens

/-- The tag at the start of a text, without its hash. -/
def leadingTag? : Text → Option (Text × Nat)
  | '#' :: rest =>
    let name := rest.takeWhile isTagChar
    if name.isEmpty then none else some (name, name.length + 1)
  | _ => none

/-- The tags of a text, each once, in order of first occurrence. Tags in comments count. -/
def extractTags (text : Text) : List Text :=
  distinct ((text.occurrences leadingTag?).map Prod.snd)

end GrammarLens
