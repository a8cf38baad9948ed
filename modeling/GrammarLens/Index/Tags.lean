import GrammarLens.Table
import GrammarLens.Text

/-!
Contract: the tags of a workspace.

Owns: the tags in order of first insertion, each with the files it was seen in. Tags are
never removed.
-/

namespace GrammarLens

/-- Tags with the files that contributed them. -/
structure TagIndex where
  owners : Table Text (List Text)
deriving DecidableEq, Repr

namespace TagIndex

def empty : TagIndex := ⟨Table.empty⟩

/-- The files a tag was seen in. -/
def sources (index : TagIndex) (tag : Text) : List Text := (index.owners.find? tag).getD []

/-- Adds a tag, with the file it came from when that is known. -/
def add (index : TagIndex) (tag : Text) (uri : Option Text) : TagIndex :=
  let known := index.sources tag
  ⟨index.owners.put tag (match uri with
    | some file => known.insert file
    | none => known)⟩

/-- Adds tags in order. -/
def addAll (index : TagIndex) (tags : List Text) (uri : Option Text) : TagIndex :=
  tags.foldl (fun current tag => current.add tag uri) index

/-- The tags, in order of first insertion. -/
def tags (index : TagIndex) : List Text := index.owners.keys

/-- The tags that start with the given text, in order of first insertion. -/
def starting (index : TagIndex) (start : Text) : List Text :=
  index.tags.filter fun tag => start.isPrefixOf tag

def contains (index : TagIndex) (tag : Text) : Bool := index.owners.contains tag

def size (index : TagIndex) : Nat := index.owners.size

end TagIndex

end GrammarLens
