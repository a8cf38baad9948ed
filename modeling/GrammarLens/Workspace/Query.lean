import GrammarLens.Highlight
import GrammarLens.Workspace

/-!
Contract: what an editor asks about a text.

Owns:
- the word under the cursor, as far as the word window reaches;
- hover: the documentation of that word;
- go to definition: the place of that word's definition, if it lies below a root;
- completion and highlighting against the indexes of the workspace.

Queries change nothing.
-/

namespace GrammarLens

/-- A name under the cursor, and its offsets. -/
structure Word where
  text : Text
  start : Nat
  finish : Nat
deriving DecidableEq, Repr

/-- Documentation shown for a stretch of text. -/
structure Hover where
  value : Text
  range : SourceRange
deriving DecidableEq, Repr

/-- Angle brackets written so that markup shows them. -/
def escapeMarkup (text : Text) : Text :=
  text.flatMap fun c =>
    if c = '<' then "&lt;".toList else if c = '>' then "&gt;".toList else [c]

/-- The range between two offsets. -/
def Text.rangeOf (text : Text) (start finish : Nat) : SourceRange :=
  let first := text.positionAt start
  let last := text.positionAt finish
  ⟨first.line, first.character, last.line, last.character⟩

/-- The word around an offset, given the window on its two sides. A word that runs on past
the window, and a tag, are no word. -/
def wordWithin (text : Text) (windowStart offset windowFinish : Nat) : Option Word :=
  let before := typedRun (text.slice windowStart offset)
  let after := (text.slice offset windowFinish).takeWhile isNameChar
  let start := offset - before.length
  let finish := offset + after.length
  let previous := text.before? start
  let cutBefore := start = windowStart && previous.any isNameChar
  let cutAfter := finish = windowFinish && text[finish]?.any isNameChar
  if before.isEmpty && after.isEmpty then none
  else if cutBefore || cutAfter || previous = some '#' then none
  else some ⟨text.slice start finish, start, finish⟩

namespace Workspace

/-- The word under an offset. -/
def wordAt (workspace : Workspace) (text : Text) (offset : Int) :
    Except SettingsFault (Option Word) :=
  if offset < 0 || text.length < offset then .ok none
  else do
    let start ← workspace.settings.wordWindow.start offset.toNat
    let finish ← workspace.settings.wordWindow.finish offset.toNat text.length
    return wordWithin text start offset.toNat finish

/-- The documentation of the word under an offset. -/
def documentationAt (workspace : Workspace) (text : Text) (offset : Int) :
    Except SettingsFault (Option Text) := do
  let word ← workspace.wordAt text offset
  return word.bind fun found => workspace.documentation.lookup? found.text

/-- What to show at a position: the documentation of the word there. -/
def hover (workspace : Workspace) (text : Text) (line character : Int) :
    Except SettingsFault (Option Hover) := do
  let word ← workspace.wordAt text (text.offsetAt line character)
  return word.bind fun found =>
    (workspace.documentation.lookup? found.text).map fun doc =>
      ⟨escapeMarkup doc, text.rangeOf found.start found.finish⟩

/-- The URI of a path below the first of some roots that contains it. -/
def resolveBelow (path : Path) : List Path → Except UriError (Option Text)
  | [] => .ok none
  | root :: rest =>
    match path.partsBelow? root with
    | some parts => (Uri.ofFilePath (root.extend parts).toText).map some
    | none => resolveBelow path rest

/-- The URI of a file, written anew from the first root that contains it; none for a file
outside every root. -/
def resolveInRoots (workspace : Workspace) (uri : Text) : Except UriError (Option Text) := do
  match ← Uri.filePath? uri with
  | none => return none
  | some path => resolveBelow (Path.ofText path) workspace.roots

/-- The place where the word at a position is defined. -/
def definition (workspace : Workspace) (text : Text) (line character : Int) :
    Reply Workspace (Option DefinitionSite) :=
  match workspace.wordAt text (text.offsetAt line character) with
  | .error fault => ⟨workspace, [], .error (.settings fault)⟩
  | .ok none => ⟨workspace, [], .ok none⟩
  | .ok (some word) =>
    match workspace.definitions.lookup? word.text with
    | none => ⟨workspace, [], .ok none⟩
    | some site =>
      match workspace.resolveInRoots site.uri with
      | .error error => ⟨workspace, [], .error (.uri error)⟩
      | .ok none => ⟨workspace, [.outsideRoots word.text], .ok none⟩
      | .ok (some uri) => ⟨workspace, [], .ok (some (site.relocate (some uri)))⟩

/-- The completion items at a position. -/
def complete (workspace : Workspace) (text : Text) (line character : Int) :
    Except SettingsFault (List Completion.Item) :=
  Completion.complete workspace.settings workspace.attributes workspace.tags text
    (text.offsetAt line character)

/-- The spans of the defined names in a text. -/
def spans (workspace : Workspace) (text : Text) : List Span :=
  Highlight.classify workspace.definitions.names text

/-- The encoded spans of the defined names in a text. -/
def highlighting (workspace : Workspace) (text : Text) : List Int :=
  Highlight.tokens workspace.definitions.names text

end Workspace

end GrammarLens
