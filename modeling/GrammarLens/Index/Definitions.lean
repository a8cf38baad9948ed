import GrammarLens.Table
import GrammarLens.Text.Cursor

/-!
Contract: where names are defined.

Owns:
- definition sites;
- the index of the latest definition of each name, and of the latest one in each file;
- the report of a definition that replaces one of another file.
-/

namespace GrammarLens

/-- The place of a definition. -/
structure DefinitionSite where
  uri : Text
  range : SourceRange
deriving DecidableEq, Repr

namespace DefinitionSite

/-- The site, moved to another file identity when one is given. -/
def relocate (site : DefinitionSite) (uri : Option Text) : DefinitionSite :=
  match uri with
  | some (c :: rest) => { site with uri := c :: rest }
  | _ => site

/-- The site as an editor is told of it, in another file when one is given. Both ends of its
range have to be positions that an editor can name. -/
def location (site : DefinitionSite) (uri : Option Text) : Except CursorError DefinitionSite := do
  let _ ← Cursor.ofNumbers site.range.line site.range.character
  let _ ← Cursor.ofNumbers site.range.endLine site.range.endCharacter
  return site.relocate uri

/-- File and start of a site. -/
def render (site : DefinitionSite) : Text := site.uri ++ ':' :: site.range.render

end DefinitionSite

/-- A definition that took the place of one in another file. -/
structure Redefinition where
  name : Text
  current : DefinitionSite
  replaced : DefinitionSite
deriving DecidableEq, Repr

/-- Whether the report of a redefinition can be written out. -/
def Redefinition.isWritable (event : Redefinition) : Bool :=
  event.current.range.isWritable && event.replaced.range.isWritable

/-- The latest definition of each name, and for each name the latest one in each file. -/
structure DefinitionIndex where
  winners : Table Text DefinitionSite
  sources : Table Text (Table Text DefinitionSite)
deriving DecidableEq, Repr

namespace DefinitionIndex

def empty : DefinitionIndex := ⟨Table.empty, Table.empty⟩

def lookup? (index : DefinitionIndex) (name : Text) : Option DefinitionSite :=
  index.winners.find? name

/-- Keeps a definition as the latest one of its name in its file; the winner stays. -/
def keep (index : DefinitionIndex) (name : Text) (site : DefinitionSite) : DefinitionIndex where
  winners := index.winners
  sources :=
    index.sources.put name (((index.sources.find? name).getD Table.empty).put site.uri site)

/-- Records a definition; it wins over every earlier one of its name. -/
def add (index : DefinitionIndex) (name : Text) (site : DefinitionSite) : DefinitionIndex where
  winners := index.winners.put name site
  sources := (index.keep name site).sources

/-- The report owed when a definition is about to be recorded: the winner so far stands in
another file. -/
def redefinition? (index : DefinitionIndex) (name : Text) (site : DefinitionSite) :
    Option Redefinition :=
  match index.lookup? name with
  | some replaced => if replaced.uri = site.uri then none else some ⟨name, site, replaced⟩
  | none => none

/-- Records a definition, and gives the report owed for it. When the report cannot be written
out, the definition is kept for its file only. -/
def record (index : DefinitionIndex) (name : Text) (site : DefinitionSite) :
    DefinitionIndex × Except NumeralError (Option Redefinition) :=
  let report := index.redefinition? name site
  if report.all Redefinition.isWritable then (index.add name site, .ok report)
  else (index.keep name site, .error .tooLong)

/-- The definitions of a name by file, in order of each file's first one; none unless at least
two files define it. -/
def conflicts (index : DefinitionIndex) (name : Text) : List DefinitionSite :=
  let byFile := (index.sources.find? name).getD Table.empty
  if byFile.size < 2 then [] else byFile.values

/-- The defined names. -/
def names (index : DefinitionIndex) : List Text := index.winners.keys

def contains (index : DefinitionIndex) (name : Text) : Bool := index.winners.contains name

def size (index : DefinitionIndex) : Nat := index.winners.size

end DefinitionIndex

end GrammarLens
