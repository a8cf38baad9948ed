import GrammarLens.Proofs.DefinitionHistory
import GrammarLens.Server

/-!
Contract: what a server has indexed since it was started, and which tags it knows from that.

Owns:
- the log of a server: the files indexed and removed since the last start, with what led to each;
- the entries that an event adds to the log, also when a fault cuts the event short;
- the tables of the workspace follow the log, whatever the history of events;
- the tags that are known, in terms of the log.

Does not own: what the server answers.

## Why causes are kept

A scan, an opened document, a saved one and one that is indexed again while it is typed all take in
the tags of the text together with its attributes. A file that is read again because it changed is
indexed without its tags, and an opened document that is indexed already is left alone, so nothing
makes up for it until the file is saved or typed in. What holds of tags therefore depends on what led
to the last indexing of a file, and the text alone does not tell.
-/

namespace GrammarLens

/-! ## The log -/

/-- What leads a server to index a file. -/
inductive Cause where
  | scan
  | opened
  | saved
  | typed
  | watched
deriving DecidableEq, Repr

/-- What a server does with a file. -/
inductive Entry where
  | indexed (cause : Cause) (uri text : Text)
  | removed (uri : Text)
deriving DecidableEq, Repr

namespace Entry

/-- The changes that an entry stands for. Only a watched change leaves the tags out. -/
def changes : Entry → List Change
  | .indexed cause uri text =>
    if cause = .watched then [.indexed uri text] else Change.ofText uri text
  | .removed uri => [.removed uri]

def concerns (uri : Text) : Entry → Bool
  | .indexed _ other _ => other = uri
  | .removed other => other = uri

def indexing? : Entry → Option (Cause × Text)
  | .indexed cause _ text => some (cause, text)
  | .removed _ => none

end Entry

/-- The last indexing of a file, with what led to it, unless the file was removed since. -/
def lastIndexing? (uri : Text) (log : List Entry) : Option (Cause × Text) :=
  (log.filter (Entry.concerns uri)).getLast?.bind Entry.indexing?

def changesOfLog (log : List Entry) : List Change := log.flatMap Entry.changes

@[simp]
theorem changesOfLog_append (first second : List Entry) :
    changesOfLog (first ++ second) = changesOfLog first ++ changesOfLog second :=
  List.flatMap_append

@[simp]
theorem changesOfLog_singleton (entry : Entry) : changesOfLog [entry] = entry.changes :=
  List.flatMap_singleton ..

private theorem lastIndexing?_concat (uri : Text) (log : List Entry) (entry : Entry) :
    lastIndexing? uri (log ++ [entry]) =
      if entry.concerns uri then entry.indexing? else lastIndexing? uri log := by
  unfold lastIndexing?
  rw [List.filter_append, List.getLast?_append]
  by_cases concerned : entry.concerns uri
  · simp [concerned]
  · simp [concerned]

/-- An entry decides about the text of a file exactly if it concerns the file. -/
theorem lastText?_append_changes (uri : Text) (changes : List Change) (entry : Entry) :
    lastText? uri (changes ++ entry.changes) =
      if entry.concerns uri then entry.indexing?.map Prod.snd else lastText? uri changes := by
  cases entry with
  | removed other => exact lastText?_concat ..
  | indexed cause other text =>
      have indexed : lastText? uri (changes ++ [.indexed other text]) =
          if decide (other = uri) then some text else lastText? uri changes :=
        lastText?_concat ..
      rw [Entry.changes]
      split
      · exact indexed
      · -- Taking in tags comes last and concerns no file.
        rw [Change.ofText, List.append_cons, lastText?_concat]
        exact indexed

private theorem lastText?_changesOfLog (uri : Text) (log : List Entry) :
    lastText? uri (changesOfLog log) = (lastIndexing? uri log).map Prod.snd := by
  induction log using List.reverseRecOn with
  | nil => rfl
  | append_singleton log entry inductionHypothesis =>
      rw [changesOfLog_append, changesOfLog_singleton, lastText?_append_changes,
        lastIndexing?_concat, inductionHypothesis, apply_ite (Option.map Prod.snd)]

private theorem mem_of_lastIndexing? {uri text : Text} {log : List Entry} {cause : Cause}
    (last : lastIndexing? uri log = some (cause, text)) : Entry.indexed cause uri text ∈ log := by
  obtain ⟨entry, isLast, indexing⟩ := Option.bind_eq_some_iff.mp last
  obtain ⟨member, concerned⟩ := List.mem_filter.mp (List.mem_of_getLast? isLast)
  cases entry with
  | removed other => cases indexing
  | indexed otherCause other otherText =>
      cases indexing
      rw [← of_decide_eq_true concerned]
      exact member

private theorem mem_taggingsOf_changes {entry : Entry} {tag uri : Text} :
    (tag, some uri) ∈ taggingsOf entry.changes ↔
      ∃ cause text, entry = .indexed cause uri text ∧ cause ≠ .watched ∧
        tag ∈ extractTags text := by
  cases entry with
  | removed other => simp [Entry.changes, taggingsOf, Change.taggings]
  | indexed cause other text =>
      by_cases watched : cause = .watched
      · simp [Entry.changes, watched, taggingsOf, Change.taggings]
      · have taken : taggingsOf (Entry.indexed cause other text).changes =
            (extractTags text).map fun tag => (tag, some other) := by
          simp [Entry.changes, watched, Change.ofText, taggingsOf, Change.taggings]
        rw [taken, List.mem_map]
        constructor
        · intro found
          obtain ⟨_, known, same⟩ := found
          cases same
          exact ⟨cause, text, rfl, watched, known⟩
        · intro found
          obtain ⟨_, _, same, _, known⟩ := found
          cases same
          exact ⟨tag, known, rfl⟩

/-- The tags that a log takes in are those of every text that something else than a watched
change led to. -/
theorem mem_taggingsOf_changesOfLog {log : List Entry} {tag uri : Text} :
    (tag, some uri) ∈ taggingsOf (changesOfLog log) ↔
      ∃ cause text, Entry.indexed cause uri text ∈ log ∧ cause ≠ .watched ∧
        tag ∈ extractTags text := by
  have inEntries : taggingsOf (changesOfLog log) =
      log.flatMap fun entry => taggingsOf entry.changes := List.flatMap_assoc
  rw [inEntries, List.mem_flatMap]
  constructor
  · intro found
    obtain ⟨entry, member, tagging⟩ := found
    obtain ⟨cause, text, rfl, notWatched, known⟩ := mem_taggingsOf_changes.mp tagging
    exact ⟨cause, text, member, notWatched, known⟩
  · intro found
    obtain ⟨cause, text, member, notWatched, known⟩ := found
    exact ⟨_, member, mem_taggingsOf_changes.mpr ⟨cause, text, rfl, notWatched, known⟩⟩

/-! ## Requests in turn -/

theorem Reply.andThen_state {σ α β : Type} (first : Reply σ α) (next : σ → α → Reply σ β) :
    (first.andThen next).state =
      match first.result with
      | .error _ => first.state
      | .ok value => (next first.state value).state := by
  unfold andThen
  cases first.result with
  | error fault => rfl
  | ok value => rfl

/-- The entries of requests to a workspace that are handled in turn, up to the first fault. The
request that ends with the fault still has its own. -/
def entriesInTurn {α β : Type} (request : Workspace → α → Reply Workspace β)
    (entries : Workspace → α → List Entry) (workspace : Workspace) : List α → List Entry
  | [] => []
  | item :: rest =>
    entries workspace item ++
      match (request workspace item).result with
      | .error _ => []
      | .ok _ => entriesInTurn request entries (request workspace item).state rest

/-- If the tables follow the entries of each request, they follow those of all in turn. -/
theorem inTurn_tables {α β : Type} {request : Workspace → α → Reply Workspace β}
    {entries : Workspace → α → List Entry} (all : Workspace → List α → Reply Workspace Unit)
    (none : ∀ workspace, all workspace [] = ⟨workspace, [], .ok ()⟩)
    (next : ∀ workspace item rest, all workspace (item :: rest) =
      (request workspace item).andThen fun changed _ => all changed rest)
    (single : ∀ workspace item, (request workspace item).state.tables =
      workspace.tables.afterAll (changesOfLog (entries workspace item)))
    (workspace : Workspace) (items : List α) :
    (all workspace items).state.tables =
      workspace.tables.afterAll (changesOfLog (entriesInTurn request entries workspace items)) := by
  induction items generalizing workspace with
  | nil => rw [none, entriesInTurn, changesOfLog, List.flatMap_nil, Tables.afterAll, List.foldl_nil]
  | cons item rest inductionHypothesis =>
      rw [next, Reply.andThen_state, entriesInTurn, changesOfLog_append, Tables.afterAll_append,
        ← single]
      cases (request workspace item).result with
      | error fault => rfl
      | ok answer => exact inductionHypothesis _

namespace Workspace

/-- The entry of a visit: a file that could not be read has none. -/
def entryOfVisit? : Visit → Option Entry
  | .indexed uri text => some (.indexed .scan uri text)
  | .failed _ => none

def scanEntries (tree : FileTree) (workspace : Workspace) (root : Path) : List Entry :=
  (scanOutcome workspace.settings tree root).1.filterMap entryOfVisit?

private theorem scan_tables_entries (tree : FileTree) (workspace : Workspace) (root : Path) :
    (workspace.scan tree root).state.tables =
      workspace.tables.afterAll (changesOfLog (scanEntries tree workspace root)) := by
  have sameChanges : ∀ visits : List Visit,
      changesOfLog (visits.filterMap entryOfVisit?) = visits.flatMap Visit.changes := by
    intro visits
    induction visits with
    | nil => rfl
    | cons visit rest inductionHypothesis =>
        rw [List.flatMap_cons, ← inductionHypothesis]
        cases visit <;> rfl
  rw [scan_tables, scanEntries, sameChanges]

private theorem scanAll_tables (tree : FileTree) (workspace : Workspace) (roots : List Path) :
    (workspace.scanAll tree roots).state.tables =
      workspace.tables.afterAll
        (changesOfLog (entriesInTurn (scan · tree) (scanEntries tree) workspace roots)) := by
  apply inTurn_tables (scanAll · tree)
  · exact fun _ => rfl
  · exact fun _ _ _ => rfl
  · exact scan_tables_entries tree

end Workspace

namespace Server

/-- The entry of one watched change: the file is read again if it is there, and removed if it is
gone. A file without the extension, outside the file system or unreadable has none. -/
def entryOfWatch? (tree : FileTree) (settings : Settings) (uri : Text) : Option Entry :=
  match settings.hasExtension uri, Uri.filePath? uri with
  | .ok true, .ok (some written) =>
    match tree.locate? (Path.ofText written).toText with
    | .error _ => none
    | .ok none => some (.removed uri)
    | .ok (some _) =>
      match tree.read (Path.ofText written).toText with
      | .error _ => none
      | .ok text => some (.indexed .watched uri text)
  | _, _ => none

private theorem handleFile_tables (tree : FileTree) (workspace : Workspace) (uri : Text) :
    (handleFile workspace tree uri).state.tables =
      workspace.tables.afterAll
        (changesOfLog (entryOfWatch? tree workspace.settings uri).toList) := by
  unfold handleFile entryOfWatch?
  rcases workspace.settings.hasExtension uri with fault | _ | _
  · rfl
  · rfl
  rcases Uri.filePath? uri with error | _ | written
  · rfl
  · rfl
  dsimp only
  rcases tree.locate? (Path.ofText written).toText with error | _ | place
  · rfl
  · rfl
  dsimp only
  rcases tree.read (Path.ofText written).toText with cause | text
  · cases cause <;> rfl
  · exact Workspace.update_tables ..

def watchEntries (tree : FileTree) (workspace : Workspace) (uris : List Text) : List Entry :=
  entriesInTurn (handleFile · tree)
    (fun current uri => (entryOfWatch? tree current.settings uri).toList) workspace uris

private theorem handleFiles_tables (tree : FileTree) (workspace : Workspace) (uris : List Text) :
    (handleFiles workspace tree uris).state.tables =
      workspace.tables.afterAll (changesOfLog (watchEntries tree workspace uris)) := by
  apply inTurn_tables (handleFiles · tree)
  · exact fun _ => rfl
  · exact fun _ _ _ => rfl
  · exact handleFile_tables tree

/-! ## Documents -/

/-- The text that a document is taken to have, if there is one. -/
def sourceText? (server : Server) (tree : FileTree) (uri : Text) : Option Text :=
  match (server.source tree uri).result with
  | .ok text => text
  | .error _ => none

private theorem source_state (server : Server) (tree : FileTree) (uri : Text) :
    (server.source tree uri).state = server := by
  unfold source
  repeat' split
  all_goals rfl

theorem withSource_state (server : Server) (tree : FileTree) (uri : Text) (absent : Answer)
    (present : Text → Reply Server Answer) :
    (server.withSource tree uri absent present).state =
      match server.sourceText? tree uri with
      | some text => (present text).state
      | none => server := by
  rw [withSource, Reply.andThen_state, source_state, sourceText?]
  rcases (server.source tree uri).result with fault | _ | text
  · rfl
  · rfl
  · rfl

/-- A question that leaves the workspace alone does so whatever its document holds. -/
theorem withSource_workspace {server : Server} {present : Text → Reply Server Answer}
    (kept : ∀ text, (present text).state.workspace = server.workspace) (tree : FileTree)
    (uri : Text) (absent : Answer) :
    (server.withSource tree uri absent present).state.workspace = server.workspace := by
  rw [withSource_state]
  cases server.sourceText? tree uri with
  | none => rfl
  | some text => exact kept text

private theorem withDocuments_workspace (server : Server)
    (change : Table Text Text → Except Fault (Table Text Text)) :
    (server.withDocuments change).state.workspace = server.workspace := by
  unfold withDocuments
  repeat' split
  all_goals rfl

private theorem definition_state (workspace : Workspace) (text : Text) (line character : Int) :
    (workspace.definition text line character).state = workspace := by
  unfold Workspace.definition
  repeat' split
  all_goals rfl

/-! ## Entries of an event -/

/-- What an event other than a start enters into the log. -/
def entriesOf (server : Server) (tree : FileTree) : Event → List Entry
  | .opened uri text =>
    match server.documents, Uri.split uri with
    | some _, .ok _ =>
      if server.workspace.isIndexed uri then [] else [.indexed .opened uri text]
    | _, _ => []
  | .saved uri given =>
    ((given.or (server.sourceText? tree uri)).map (.indexed .saved uri)).toList
  | .watched uris => watchEntries tree server.workspace uris
  | .completion uri cursor =>
    match server.sourceText? tree uri with
    | some text =>
      match Workspace.endsStructurally server.workspace.settings text
          (text.offsetAt cursor.line cursor.character) with
      | .ok true => [.indexed .typed uri text]
      | _ => []
    | none => []
  | .started .. | .initialized | .shutdown | .changed .. | .closed _ | .hover .. | .definition ..
  | .highlighting _ => []

/-- The log after an event. A start begins a new one, unless the root has no valid URI. -/
def logAfter (server : Server) (log : List Entry) (tree : FileTree) : Event → List Entry
  | .started options rootUri folders =>
    match (rootUri.map Uri.split).getD (.ok ⟨[], [], []⟩) with
    | .error _ => log
    | .ok _ =>
      match (folderPaths (folderUris rootUri folders)).1 with
      | .error _ => []
      | .ok roots =>
        entriesInTurn (Workspace.scan · tree) (Workspace.scanEntries tree)
          (.empty (settingsFor options).1) roots
  | event => log ++ server.entriesOf tree event

/-- The log after a history of events. -/
def logAfterAll (server : Server) (log : List Entry) : List (FileTree × Event) → List Entry
  | [] => log
  | (tree, event) :: rest =>
    logAfterAll (server.handle tree event).state (server.logAfter log tree event) rest

/-- The tables of a server hold what its log says, and nothing else. -/
def Follows (server : Server) (log : List Entry) : Prop :=
  server.workspace.tables = Tables.empty.afterAll (changesOfLog log)

section Events

variable {server : Server} (tree : FileTree)

private theorem handleOpened_tables (uri text : Text) :
    (server.handleOpened uri text).state.workspace.tables =
      server.workspace.tables.afterAll
        (changesOfLog (server.entriesOf tree (.opened uri text))) := by
  dsimp only [handleOpened, withDocuments, entriesOf]
  rcases server.documents with _ | documents
  · rfl
  rcases Uri.split uri with error | parts
  · rfl
  dsimp only
  split
  · rfl
  · exact Workspace.updateWithTags_tables ..

private theorem handleSaved_tables (uri : Text) (given : Option Text) :
    (server.handleSaved tree uri given).state.workspace.tables =
      server.workspace.tables.afterAll
        (changesOfLog (server.entriesOf tree (.saved uri given))) := by
  have indexed : ∀ text, (server.workspace.updateWithTags uri text).tables =
      server.workspace.tables.afterAll (changesOfLog [.indexed .saved uri text]) := by
    intro text
    rw [Workspace.updateWithTags_tables]
    rfl
  cases given with
  | some text => exact indexed text
  | none =>
      dsimp only [handleSaved, entriesOf]
      rw [withSource_state]
      cases server.sourceText? tree uri with
      | none => rfl
      | some text => exact indexed text

private theorem handleCompletion_tables (uri : Text) (cursor : Cursor) :
    (server.handle tree (.completion uri cursor)).state.workspace.tables =
      server.workspace.tables.afterAll
        (changesOfLog (server.entriesOf tree (.completion uri cursor))) := by
  rw [handle, withSource_state, entriesOf]
  cases server.sourceText? tree uri with
  | none => rfl
  | some text =>
      dsimp only [answerCompletion, lift, withWorkspace]
      rw [Reply.andThen_state, Workspace.refresh]
      rcases Workspace.endsStructurally server.workspace.settings text
        (text.offsetAt cursor.line cursor.character) with fault | _ | _
      · rfl
      · rfl
      · exact Workspace.updateWithTags_tables ..

private theorem start_follows (options : Value) (rootUri : Option Text) (folders : List Text)
    {log : List Entry} (follows : server.Follows log) :
    (server.handle tree (.started options rootUri folders)).state.Follows
      (server.logAfter log tree (.started options rootUri folders)) := by
  dsimp only [handle, logAfter, start]
  cases (rootUri.map Uri.split).getD (.ok ⟨[], [], []⟩) with
  | error error => exact follows
  | ok parts =>
      cases (folderPaths (folderUris rootUri folders)).1 with
      | error fault => rfl
      | ok roots => exact Workspace.scanAll_tables ..

/-- What an event enters goes to the end of the log. -/
theorem Follows.append {next : Server} {log entries : List Entry} (follows : server.Follows log)
    (entered : next.workspace.tables = server.workspace.tables.afterAll (changesOfLog entries)) :
    next.Follows (log ++ entries) := by
  rw [Follows, entered, follows, changesOfLog_append, Tables.afterAll_append]

private theorem handle_follows {log : List Entry} (follows : server.Follows log) (event : Event) :
    (server.handle tree event).state.Follows (server.logAfter log tree event) := by
  have unchanged : ∀ {next : Server}, next.workspace = server.workspace →
      next.Follows (log ++ []) :=
    fun same => follows.append (congrArg Workspace.tables same)
  cases event with
  | started options rootUri folders => exact start_follows tree options rootUri folders follows
  | initialized => exact unchanged rfl
  | shutdown => exact unchanged rfl
  | opened uri text => exact follows.append (handleOpened_tables tree uri text)
  | changed uri text => exact unchanged (withDocuments_workspace ..)
  | closed uri => exact unchanged (withDocuments_workspace ..)
  | saved uri given => exact follows.append (handleSaved_tables tree uri given)
  | watched uris => exact follows.append (handleFiles_tables tree server.workspace uris)
  | completion uri cursor => exact follows.append (handleCompletion_tables tree uri cursor)
  | hover uri cursor =>
      apply unchanged
      apply withSource_workspace
      exact fun _ => rfl
  | definition uri cursor =>
      apply unchanged
      apply withSource_workspace
      exact fun _ => definition_state ..
  | highlighting uri =>
      apply unchanged
      apply withSource_workspace
      exact fun _ => rfl

end Events

private theorem run_follows {server : Server} {log : List Entry} (follows : server.Follows log)
    (history : List (FileTree × Event)) :
    (server.run history).Follows (server.logAfterAll log history) := by
  -- The log runs along with the server, because what an event enters depends on the state.
  induction history generalizing server log with
  | nil => exact follows
  | cons step rest inductionHypothesis =>
      exact inductionHypothesis (handle_follows step.1 follows step.2)

/-! ## Known tags -/

theorem Follows.files {server : Server} {log : List Entry} (follows : server.Follows log)
    (uri : Text) :
    server.workspace.attributes.files.find? uri =
      (lastIndexing? uri log).map fun indexing => extractAttributes indexing.2 := by
  have files := congrArg Tables.files follows
  calc server.workspace.attributes.files.find? uri
    _ = (Tables.empty.afterAll (changesOfLog log)).files.find? uri := congrArg (·.find? uri) files
    _ = (lastText? uri (changesOfLog log)).map extractAttributes := Tables.files_afterAll ..
    _ = _ := by rw [lastText?_changesOfLog, Option.map_map]; rfl

theorem Follows.tags {server : Server} {log : List Entry} (follows : server.Follows log) :
    server.workspace.tags = TagIndex.ofTaggings (taggingsOf (changesOfLog log)) :=
  (congrArg Tables.tags follows).trans (Tables.tags_afterAll ..)

theorem Follows.mem_sources {server : Server} {log : List Entry} (follows : server.Follows log)
    {tag uri : Text} :
    uri ∈ server.workspace.tags.sources tag ↔
      ∃ cause text, Entry.indexed cause uri text ∈ log ∧ cause ≠ .watched ∧
        tag ∈ extractTags text := by
  rw [follows.tags, (TagIndex.sources_ofTaggings _ tag).2 uri, mem_taggingsOf_changesOfLog]

/-- The files and tags of a server after any history of events. A file is known exactly if it was
indexed and not removed since, with the attributes of its last text. A file is a source of a tag
exactly if some text of it with the tag was indexed for another cause than a watched change. So
every tag of the last text of a file is known, with the file as a source, unless a watched change
led to that text. -/
theorem run_knows_tags (history : List (FileTree × Event)) :
    let workspace := (fresh.run history).workspace
    let log := fresh.logAfterAll [] history
    (∀ uri, workspace.attributes.files.find? uri =
      (lastIndexing? uri log).map fun indexing => extractAttributes indexing.2) ∧
    (∀ tag uri, uri ∈ workspace.tags.sources tag ↔
      ∃ cause text, Entry.indexed cause uri text ∈ log ∧ cause ≠ .watched ∧
        tag ∈ extractTags text) ∧
    ∀ uri cause text, lastIndexing? uri log = some (cause, text) → cause ≠ .watched →
      ∀ tag ∈ extractTags text,
        workspace.tags.contains tag ∧ uri ∈ workspace.tags.sources tag := by
  intro workspace log
  have start : fresh.Follows [] := rfl
  have follows : (fresh.run history).Follows log := run_follows start history
  refine ⟨follows.files, fun tag uri => follows.mem_sources, ?_⟩
  intro uri cause text last notWatched tag known
  have source : uri ∈ workspace.tags.sources tag :=
    follows.mem_sources.mpr ⟨cause, text, mem_of_lastIndexing? last, notWatched, known⟩
  exact ⟨TagIndex.contains_of_mem_sources source, source⟩

/-- A directory with one grammar file. -/
def grammarTree (text : Text) : FileTree where
  current := ["ws".toList]
  nodes := Table.ofList
    [(["ws".toList], .directory), (["ws".toList, "a.tdl".toList], .file (Utf8.encode text))]

/-- The server starts without a folder, and then the file is reported as changed. -/
def watchedHistory : List (FileTree × Event) :=
  [(grammarTree [], .started .null none []),
    (grammarTree "A := [ x #t ].".toList, .watched ["file:///ws/a.tdl".toList])]

/-- Saving the file makes up for the tags that the watched change left out. -/
theorem run_knows_tags_savedFile :
    let history := watchedHistory ++
      [(grammarTree "A := [ x #t ].".toList, .saved "file:///ws/a.tdl".toList none)]
    let workspace := (fresh.run history).workspace
    lastIndexing? "file:///ws/a.tdl".toList (fresh.logAfterAll [] history) =
        some (.saved, "A := [ x #t ].".toList) ∧
      "t".toList ∈ extractTags "A := [ x #t ].".toList ∧
      workspace.tags.contains "t".toList ∧
      "file:///ws/a.tdl".toList ∈ workspace.tags.sources "t".toList := by
  intro history workspace
  have last : lastIndexing? "file:///ws/a.tdl".toList (fresh.logAfterAll [] history) =
      some (.saved, "A := [ x #t ].".toList) := by
    decide +kernel
  have known : "t".toList ∈ extractTags "A := [ x #t ].".toList := by decide
  exact ⟨last, known, (run_knows_tags history).2.2 _ _ _ last (by decide) _ known⟩

/-- A file that changes on disk is indexed, and the tags of its text stay unknown. -/
theorem run_misses_tags_watchedFile :
    let workspace := (fresh.run watchedHistory).workspace
    workspace.isIndexed "file:///ws/a.tdl".toList ∧
      lastIndexing? "file:///ws/a.tdl".toList (fresh.logAfterAll [] watchedHistory) =
        some (.watched, "A := [ x #t ].".toList) ∧
      "t".toList ∈ extractTags "A := [ x #t ].".toList ∧
      workspace.tags.contains "t".toList = false ∧
      "file:///ws/a.tdl".toList ∉ workspace.tags.sources "t".toList := by
  decide +kernel

end Server

end GrammarLens
