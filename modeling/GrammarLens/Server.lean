import GrammarLens.Workspace.Query
import GrammarLens.Workspace.Scan

/-!
Contract: the language server, without its transport.

Owns:
- the server's state: one workspace, and the texts of the open documents once the editor
  has initialized the server. Documents are kept under their percent-decoded URI, the
  workspace uses URIs as given;
- events from the editor, and the answer and notices each leads to.

Does not own: the files. Every event comes with the file tree as it is then.
-/

namespace GrammarLens

/-- The server: a workspace, and the open documents after initialization. -/
structure Server where
  workspace : Workspace
  documents : Option (Table Text Text)

/-- What the editor sends. -/
inductive Event where
  | started (options : Value) (rootUri : Option Text) (folders : List Text)
  | initialized
  | shutdown
  | opened (uri text : Text)
  | changed (uri text : Text)
  | closed (uri : Text)
  | saved (uri : Text) (text : Option Text)
  | watched (uris : List Text)
  | completion (uri : Text) (cursor : Cursor)
  | hover (uri : Text) (cursor : Cursor)
  | definition (uri : Text) (cursor : Cursor)
  | highlighting (uri : Text)

/-- What the server answers. A document that is not available has no completion, hover or
definition, and no highlighting. -/
inductive Answer where
  | done
  | capabilities (settings : Settings) (roots : List Path)
  | completion (items : Option (List Completion.Item))
  | hover (found : Option Hover)
  | definition (found : Option DefinitionSite)
  | highlighting (data : List Int)

namespace Server

/-- The name under which the server presents itself. -/
def name : Text := "tdl-lsp".toList

def version : Text := "v0.1.0".toList

/-- Characters after which an editor asks for completion. -/
def completionTriggers : List Text := [['.'], ['['], [' '], ['#'], [',']]

/-- A server that the editor has not initialized yet. -/
def fresh : Server := ⟨.empty .standard, none⟩

/-- The server with another workspace. -/
def withWorkspace (server : Server) (workspace : Workspace) : Server := { server with workspace }

/-- A reply of the server to an event that its workspace answered. -/
def lift {α : Type} (server : Server) (reply : Reply Workspace α) (answer : α → Answer) :
    Reply Server Answer :=
  ⟨server.withWorkspace reply.state, reply.notices, reply.result.map answer⟩

/-! ## Documents -/

/-- The text of a document: the open one, or else the file at its path. An error of the system
means that there is none; other failures are faults. -/
def source (server : Server) (tree : FileTree) (uri : Text) : Reply Server (Option Text) :=
  match server.documents with
  | none => ⟨server, [], .error .notInitialized⟩
  | some documents =>
    match documents.find? (Uri.percentDecode uri) with
    | some text => ⟨server, [], .ok (some text)⟩
    | none =>
      match Uri.documentPath uri with
      | .error error => ⟨server, [], .error (.uri error)⟩
      | .ok path =>
        match tree.read (Path.ofText path).toText with
        | .ok text => ⟨server, [], .ok (some text)⟩
        | .error .nullCharacter => ⟨server, [], .error .nullCharacter⟩
        | .error (.error (.malformed sequence)) =>
          ⟨server, [], .error (.unreadable (.malformed sequence))⟩
        | .error (.error cause) => ⟨server, [.documentUnavailable uri cause], .ok none⟩

/-- Answers from the text of a document, or with `absent` when there is none. -/
def withSource (server : Server) (tree : FileTree) (uri : Text) (absent : Answer)
    (present : Text → Reply Server Answer) : Reply Server Answer :=
  (server.source tree uri).andThen fun state text =>
    match text with
    | some text => present text
    | none => ⟨state, [], .ok absent⟩

/-- Changes the open documents; before initialization there are none to change. -/
def withDocuments (server : Server)
    (change : Table Text Text → Except Fault (Table Text Text)) : Reply Server Answer :=
  match server.documents with
  | none => ⟨server, [], .error .notInitialized⟩
  | some documents =>
    match change documents with
    | .error fault => ⟨server, [], .error fault⟩
    | .ok changed => ⟨{ server with documents := some changed }, [], .ok .done⟩

/-! ## Initialization -/

/-- The settings that options ask for; wrong options are reported and ignored. -/
def settingsFor (options : Value) : Settings × List Notice :=
  match Settings.ofOptions options with
  | .ok settings => (settings, [])
  | .error error => (.standard, [.optionsIgnored error])

/-- The URIs of the folders to scan: those given, or else the root. -/
def folderUris (rootUri : Option Text) (folders : List Text) : List Text :=
  if folders.isEmpty then (rootUri.filter (!·.isEmpty)).toList else folders

/-- The paths of folders. Folders that are not files are reported and left out. -/
def folderPaths : List Text → Except Fault (List Path) × List Notice
  | [] => (.ok [], [])
  | uri :: rest =>
    match Uri.filePath? uri with
    | .error error => (.error (.uri error), [])
    | .ok none =>
      let (paths, notices) := folderPaths rest
      (paths, .folderNotAFile uri :: notices)
    | .ok (some path) =>
      let (paths, notices) := folderPaths rest
      (paths.map (Path.ofText path :: ·), notices)

/-- Starts over: no open documents, new settings, and a scan of every folder. -/
def start (tree : FileTree) (options : Value) (rootUri : Option Text) (folders : List Text) :
    Reply Server Answer :=
  let (settings, settingsNotices) := settingsFor options
  let (paths, pathNotices) := folderPaths (folderUris rootUri folders)
  let before := .initializing :: settingsNotices ++ pathNotices
  let server : Server := ⟨.empty settings, some Table.empty⟩
  match paths with
  | .error fault => ⟨server, before, .error fault⟩
  | .ok roots =>
    let scans := server.workspace.scanAll tree roots
    ⟨server.withWorkspace scans.state, before ++ scans.notices,
      scans.result.map fun _ => .capabilities settings scans.state.roots⟩

/-! ## Documents and files that change -/

/-- Keeps the text of an opened document, and indexes it unless a scan did. -/
def handleOpened (server : Server) (uri text : Text) : Reply Server Answer :=
  let kept := server.withDocuments fun documents =>
    match Uri.split uri with
    | .error error => .error (.uri error)
    | .ok _ => .ok (documents.put (Uri.percentDecode uri) text)
  match kept.result with
  | .error _ => kept
  | .ok _ =>
    let workspace := kept.state.workspace
    if workspace.isIndexed uri then { kept with notices := [.opened uri] }
    else
      ⟨kept.state.withWorkspace (workspace.updateWithTags uri text),
        .opened uri :: workspace.indexNotices uri text, .ok .done⟩

/-- Replaces the text of an open document. -/
def handleChanged (server : Server) (uri text : Text) : Reply Server Answer :=
  let key := Uri.percentDecode uri
  server.withDocuments fun documents =>
    if documents.contains key then .ok (documents.put key text)
    else .error (.documentNotOpen key)

/-- Forgets the text of a document. -/
def handleClosed (server : Server) (uri : Text) : Reply Server Answer :=
  server.withDocuments fun documents => .ok (documents.erase (Uri.percentDecode uri))

/-- Indexes a saved document, from the text that comes with the event or the document's. -/
def handleSaved (server : Server) (tree : FileTree) (uri : Text) (text : Option Text) :
    Reply Server Answer :=
  let index := fun (saved : Text) =>
    (⟨server.withWorkspace (server.workspace.updateWithTags uri saved),
      server.workspace.indexNotices uri saved, .ok .done⟩ : Reply Server Answer)
  let reply :=
    match text with
    | some saved => index saved
    | none => server.withSource tree uri .done index
  { reply with notices := .saved uri :: reply.notices }

/-- Follows one change of a file: indexes it when it is there and readable, drops it when it
is gone, and reports what cannot be read. -/
def handleFile (workspace : Workspace) (tree : FileTree) (uri : Text) : Reply Workspace Unit :=
  match workspace.settings.hasExtension uri with
  | .error fault => ⟨workspace, [], .error (.settings fault)⟩
  | .ok false => ⟨workspace, [], .ok ()⟩
  | .ok true =>
    match Uri.filePath? uri with
    | .error error => ⟨workspace, [], .error (.uri error)⟩
    | .ok none => ⟨workspace, [], .ok ()⟩
    | .ok (some written) =>
      let path := (Path.ofText written).toText
      match tree.locate? path with
      | .error error => ⟨workspace, [.watchFailed uri (error.at path)], .ok ()⟩
      | .ok none => ⟨workspace.remove uri, workspace.removeNotices uri, .ok ()⟩
      | .ok (some _) =>
        match tree.read path with
        | .ok text => ⟨workspace.update uri text, workspace.indexNotices uri text, .ok ()⟩
        | .error .nullCharacter => ⟨workspace, [], .error .nullCharacter⟩
        | .error (.error cause) => ⟨workspace, [.watchFailed uri cause], .ok ()⟩

/-- Follows changes of files in order, up to the first fault. -/
def handleFiles (workspace : Workspace) (tree : FileTree) : List Text → Reply Workspace Unit
  | [] => ⟨workspace, [], .ok ()⟩
  | uri :: rest =>
    (handleFile workspace tree uri).andThen fun changed _ => handleFiles changed tree rest

/-! ## Questions -/

/-- Completion, after indexing the document again if a structural character was typed. -/
def answerCompletion (server : Server) (uri text : Text) (cursor : Cursor) :
    Reply Server Answer :=
  let refreshed :=
    server.workspace.refresh uri text (text.offsetAt cursor.line cursor.character)
  let reply : Reply Workspace (List Completion.Item) :=
    refreshed.andThen fun workspace again =>
      ⟨workspace, if again then [.refreshed uri] else [],
        (workspace.complete text cursor.line cursor.character).mapError .settings⟩
  server.lift reply fun items => .completion (some items)

/-- The documentation at a position. -/
def answerHover (server : Server) (text : Text) (cursor : Cursor) : Reply Server Answer :=
  ⟨server, [],
    ((server.workspace.hover text cursor.line cursor.character).map .hover).mapError .settings⟩

/-- Handles one event, with the files as they are then. -/
def handle (server : Server) (tree : FileTree) : Event → Reply Server Answer
  | .started options rootUri folders =>
    match (rootUri.map Uri.split).getD (.ok ⟨[], [], []⟩) with
    | .error error => ⟨server, [], .error (.uri error)⟩
    | .ok _ => start tree options rootUri folders
  | .initialized =>
    ⟨server,
      [.ready server.workspace.attributes.files.size server.workspace.definitions.size
        server.workspace.tags.size], .ok .done⟩
  | .shutdown => ⟨server, [.shuttingDown], .ok .done⟩
  | .opened uri text => server.handleOpened uri text
  | .changed uri text => server.handleChanged uri text
  | .closed uri => server.handleClosed uri
  | .saved uri text => server.handleSaved tree uri text
  | .watched uris => server.lift (handleFiles server.workspace tree uris) fun _ => .done
  | .completion uri cursor =>
    server.withSource tree uri (.completion none) fun text =>
      server.answerCompletion uri text cursor
  | .hover uri cursor =>
    server.withSource tree uri (.hover none) fun text => server.answerHover text cursor
  | .definition uri cursor =>
    server.withSource tree uri (.definition none) fun text =>
      server.lift (server.workspace.definition text cursor.line cursor.character) .definition
  | .highlighting uri =>
    server.withSource tree uri (.highlighting []) fun text =>
      ⟨server, [], .ok (.highlighting (server.workspace.highlighting text))⟩

/-- The server after a history of events, each with the files as they were then. -/
def run (server : Server) (history : List (FileTree × Event)) : Server :=
  history.foldl (fun current (tree, event) => (current.handle tree event).state) server

end Server

end GrammarLens
