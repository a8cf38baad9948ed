import GrammarLens.Completion
import GrammarLens.Index.Documentation
import GrammarLens.Notice
import GrammarLens.Symbols

/-!
Contract: a workspace and how single files enter and leave it.

Owns:
- the workspace: settings, the four indexes, the roots;
- indexing a text under a file's identity, with the union of attributes formed at once or
  left to the end of a batch;
- removing a file, which takes away its attributes and nothing else;
- indexing tags; indexing again after a structural character was typed.
-/

namespace GrammarLens

/-- Everything known about a set of files. -/
structure Workspace where
  settings : Settings
  attributes : AttributeIndex
  definitions : DefinitionIndex
  documentation : DocumentationIndex
  tags : TagIndex
  /-- Absolute directories, in order of registration. -/
  roots : List Path

namespace Workspace

/-- A workspace that knows nothing yet. -/
def empty (settings : Settings) : Workspace where
  settings := settings
  attributes := .empty
  definitions := .empty
  documentation := .empty
  tags := .empty
  roots := []

/-- Whether a file is indexed. -/
def isIndexed (workspace : Workspace) (uri : Text) : Bool := workspace.attributes.contains uri

/-- The place of a record. -/
def siteOf (record : DefinitionRecord) : DefinitionSite := ⟨record.uri, record.range⟩

/-- Records one definition and its documentation, if it has one. -/
def record (workspace : Workspace) (entry : DefinitionRecord) : Workspace :=
  { workspace with
    definitions := workspace.definitions.add entry.name (siteOf entry)
    documentation :=
      match entry.doc with
      | some doc => workspace.documentation.add entry.name doc
      | none => workspace.documentation }

/-- The reports owed when records enter an index one after the other. -/
def redefinitions (index : DefinitionIndex) : List DefinitionRecord → List Redefinition
  | [] => []
  | entry :: rest =>
    (index.redefinition? entry.name (siteOf entry)).toList ++
      redefinitions (index.add entry.name (siteOf entry)) rest

/-- Indexes a text without forming the union of attributes. -/
def register (workspace : Workspace) (uri text : Text) : Workspace :=
  let symbols := FileSymbols.extract text uri
  symbols.definitions.foldl record
    { workspace with attributes := workspace.attributes.register uri symbols.attributes }

/-- Forms the union of attributes. -/
def rebuild (workspace : Workspace) : Workspace :=
  { workspace with attributes := workspace.attributes.rebuild }

/-- Indexes a text. -/
def update (workspace : Workspace) (uri text : Text) : Workspace :=
  (workspace.register uri text).rebuild

/-- What indexing a text reports. -/
def indexNotices (workspace : Workspace) (uri text : Text) : List Notice :=
  let symbols := FileSymbols.extract text uri
  (redefinitions workspace.definitions symbols.definitions).map .redefined ++
    [.indexed uri symbols.attributes.size symbols.definitions.length]

/-- Drops the attributes of a file. -/
def remove (workspace : Workspace) (uri : Text) : Workspace :=
  { workspace with attributes := workspace.attributes.remove uri }

/-- What removing a file reports. -/
def removeNotices (workspace : Workspace) (uri : Text) : List Notice :=
  if workspace.isIndexed uri then [.removed uri] else []

/-- Adds the tags of a text. -/
def indexTags (workspace : Workspace) (text : Text) (uri : Option Text) : Workspace :=
  { workspace with tags := workspace.tags.addAll (extractTags text) uri }

/-- Indexes a text with its tags. -/
def updateWithTags (workspace : Workspace) (uri text : Text) : Workspace :=
  (workspace.update uri text).indexTags text (some uri)

/-- Registers a root, once. -/
def addRoot (workspace : Workspace) (root : Path) : Workspace :=
  if root ∈ workspace.roots then workspace
  else { workspace with roots := workspace.roots ++ [root] }

/-- Whether the character before an offset is structural. No character stands before the
start or past the end of the text. -/
def endsStructurally (settings : Settings) (text : Text) (offset : Int) :
    Except SettingsFault Bool :=
  if offset ≤ 0 || text.length < offset then .ok false
  else
    match text.before? offset.toNat with
    | some c => settings.isStructural c
    | none => .ok false

/-- Indexes a text again, with its tags, when a structural character stands before the
cursor. The answer tells whether it did. -/
def refresh (workspace : Workspace) (uri text : Text) (offset : Int) : Reply Workspace Bool :=
  match endsStructurally workspace.settings text offset with
  | .error fault => ⟨workspace, [], .error (.settings fault)⟩
  | .ok false => ⟨workspace, [], .ok false⟩
  | .ok true => ⟨workspace.updateWithTags uri text, workspace.indexNotices uri text, .ok true⟩

end Workspace

end GrammarLens
