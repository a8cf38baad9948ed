import GrammarLens.Fault
import GrammarLens.Index.Definitions

/-!
Contract: what a workspace and a server report beside their answers.

Owns:
- notices, one constructor for each event that is reported;
- the level, the origin and the wording of a notice;
- replies: the state after a request, its notices, and its answer or fault.
-/

namespace GrammarLens

/-- How much a notice matters. -/
inductive Level where
  | debug
  | info
  | warning
  | error
deriving DecidableEq, Repr

namespace Level

/-- Levels in rising order. -/
def rank : Level → Nat
  | debug => 0
  | info => 1
  | warning => 2
  | error => 3

def name : Level → Text
  | debug => "debug".toList
  | info => "info".toList
  | warning => "warning".toList
  | error => "error".toList

/-- Every level, in rising order. -/
def all : List Level := [debug, info, warning, error]

/-- The level of a name. -/
def ofName? (name : Text) : Option Level := all.find? fun level => level.name = name

/-- The name in capitals. -/
def label (level : Level) : Text := level.name.map Char.toUpper

end Level

/-- An event that is reported. -/
inductive Notice where
  | redefined (event : Redefinition)
  | indexed (uri : Text) (objects definitions : Nat)
  | removed (uri : Text)
  | rootNotADirectory (root : Path)
  | scanFailed (failure : ScanFailure)
  | scanned (root : Path) (files failures : Nat)
  | outsideRoots (name : Text)
  | initializing
  | optionsIgnored (error : SettingsError)
  | folderNotAFile (uri : Text)
  | opened (uri : Text)
  | saved (uri : Text)
  | watchFailed (uri : Text) (error : ReadError)
  | documentUnavailable (uri : Text) (error : ReadError)
  | refreshed (uri : Text)
  | ready (files definitions tags : Nat)
  | shuttingDown
  | startingOnPort (host : Option Text) (port : Option Int)
  | startingOnStreams
deriving DecidableEq, Repr

namespace Notice

def level : Notice → Level
  | indexed .. | removed _ | outsideRoots _ | documentUnavailable .. | refreshed _ => .debug
  | scanned .. | initializing | opened _ | saved _ | ready .. | shuttingDown
  | startingOnPort .. | startingOnStreams => .info
  | redefined _ | rootNotADirectory _ => .warning
  | scanFailed _ | optionsIgnored _ | folderNotAFile _ | watchFailed .. => .error

/-- The part of the program that reports a notice. -/
def origin : Notice → Text
  | redefined _ => "tdl_support.lsp.symbols".toList
  | indexed .. | removed _ | rootNotADirectory _ | scanFailed _ | scanned .. | outsideRoots _ =>
    "tdl_support.lsp.analyzer".toList
  | initializing | optionsIgnored _ | folderNotAFile _ | opened _ | saved _ | watchFailed ..
  | documentUnavailable .. | refreshed _ | ready .. | shuttingDown | startingOnPort ..
  | startingOnStreams => "tdl-lsp".toList

/-- What stands for the value of an option that has none. -/
def missingValue : Text := "[]".toList

def message : Notice → Text
  | redefined event =>
    "Definition of '".toList ++ event.name ++ "' at ".toList ++ event.current.render ++
      " replaces ".toList ++ event.replaced.render
  | indexed uri objects definitions =>
    "Indexed ".toList ++ uri ++ ": ".toList ++ Text.ofNat objects ++ " objects, ".toList ++
      Text.ofNat definitions ++ " definitions".toList
  | removed uri => "Removed ".toList ++ uri ++ " from the attribute index".toList
  | rootNotADirectory root => "Workspace root is not a directory: ".toList ++ root.toText
  | scanFailed failure => failure.located.render
  | scanned root files failures =>
    "Scanned ".toList ++ root.toText ++ ": ".toList ++ Text.ofNat files ++
      " files indexed, ".toList ++ Text.ofNat failures ++ " errors".toList
  | outsideRoots name =>
    "Definition of '".toList ++ name ++ "' is outside every workspace root".toList
  | initializing => "Initializing TDL Language Server".toList
  | optionsIgnored error => "Ignoring initialization options: ".toList ++ error.message
  | folderNotAFile uri =>
    "Could not scan folder ".toList ++ uri ++ ": not a file URI".toList
  | opened uri => "Document opened: ".toList ++ uri
  | saved uri => "Document saved: ".toList ++ uri
  | watchFailed uri error => "FS watch error for ".toList ++ uri ++ ": ".toList ++ error.message
  | documentUnavailable uri error =>
    "Document not available: ".toList ++ uri ++ " (".toList ++ error.message ++ ")".toList
  | refreshed uri => "Re-indexed ".toList ++ uri ++ " after structural edit".toList
  | ready files definitions tags =>
    "TDL Language Server ready: ".toList ++ Text.ofNat files ++ " files, ".toList ++
      Text.ofNat definitions ++ " definitions, ".toList ++ Text.ofNat tags ++ " tags".toList
  | shuttingDown => "Shutting down TDL Language Server".toList
  | startingOnPort host port =>
    "Starting TDL LSP in TCP mode on ".toList ++ host.getD missingValue ++
      ':' :: (port.map Text.ofInt).getD missingValue
  | startingOnStreams => "Starting TDL LSP in stdio mode".toList

/-- A notice as one line: level, origin and message. -/
def render (notice : Notice) : Text :=
  '[' :: notice.level.label ++ "] ".toList ++ notice.origin ++ ": ".toList ++ notice.message

/-- The notices that reach a threshold. -/
def atLeast (threshold : Level) (notices : List Notice) : List Notice :=
  notices.filter fun notice => threshold.rank ≤ notice.level.rank

end Notice

/-- What a request leads to: the state after it, what is reported, and the answer or the fault
that took its place. -/
structure Reply (σ α : Type) where
  state : σ
  notices : List Notice
  result : Except Fault α

/-- Goes on from a reply: its state and answer are handed on, and a fault ends the matter with
the state reached. Notices add up in order. -/
def Reply.andThen {σ α β : Type} (first : Reply σ α) (next : σ → α → Reply σ β) : Reply σ β :=
  match first.result with
  | .error fault => ⟨first.state, first.notices, .error fault⟩
  | .ok value =>
    let second := next first.state value
    { second with notices := first.notices ++ second.notices }

end GrammarLens
