import GrammarLens.Proofs.ScanReport
import GrammarLens.Proofs.ServerHistory
import GrammarLens.Proofs.SettingsUse

/-!
Contract: which questions of an editor get an answer.

Owns:
- the four questions about a document, and the answers that fit them;
- the reasons why the text of a document cannot be had, each a fault. That a file is missing or
  is a directory is none of them, that its bytes are not UTF-8 is one;
- with the standard settings a question is answered unless there is such a reason, or the name at
  the cursor was recorded under a URI that cannot be resolved. Without a text the answer is the
  absent one.

Does not own: what the answers say.
-/

namespace GrammarLens

/-! ## Questions -/

/-- What an editor asks about a document. -/
inductive Question where
  | completion (cursor : Cursor)
  | hover (cursor : Cursor)
  | definition (cursor : Cursor)
  | highlighting

namespace Question

/-- The event that puts the question about a document. -/
def event (uri : Text) : Question → Event
  | completion cursor => .completion uri cursor
  | hover cursor => .hover uri cursor
  | definition cursor => .definition uri cursor
  | highlighting => .highlighting uri

/-- The answer about a document that has no text. -/
def absent : Question → Answer
  | completion _ => .completion none
  | hover _ => .hover none
  | definition _ => .definition none
  | highlighting => .highlighting []

/-- Whether an answer is one to the question about a text. -/
def Fits : Question → Answer → Prop
  | completion _, .completion (some _) => True
  | hover _, .hover _ => True
  | definition _, .definition _ => True
  | highlighting, .highlighting _ => True
  | _, _ => False

/-- Whether the definition of the name at the cursor is asked for, and was recorded under a URI
that cannot be resolved. -/
def Strays (workspace : Workspace) (text : Text) : Question → Fault → Prop
  | definition cursor, fault =>
    ∃ word site error,
      workspace.wordAt text (text.offsetAt cursor.line cursor.character) = .ok (some word) ∧
      workspace.definitions.lookup? word.text = some site ∧
      workspace.Unresolvable site.uri error ∧ fault = .uri error
  | completion _, _ | hover _, _ | highlighting, _ => False

end Question

/-! ## The text of a document -/

theorem Uri.split_of_documentPath {uri : Text} {error : UriError}
    (strange : documentPath uri = .error error) : split uri = .error error := by
  unfold documentPath at strange
  cases parts : split uri with
  | error other =>
      rw [parts] at strange
      exact congrArg Except.error (Except.error.inj strange)
  | ok found =>
      rw [parts] at strange
      simp [Except.map] at strange

theorem FileTree.read_malformed_iff {tree : FileTree} {path : Text} {sequence : Malformed} :
    tree.read path = .error (.error (.malformed sequence)) ↔
      '\x00' ∉ path ∧ ∃ place content, tree.resolve path = .ok place ∧
        place ∉ tree.unreadable ∧ tree.node? place = some (.file content) ∧
        Utf8.decode content = .error sequence := by
  unfold read
  by_cases held : '\x00' ∈ path
  · simp [held]
  · rw [if_neg (by simpa using held)]
    cases resolved : tree.resolve path with
    | error error => simp [FileError.at]
    | ok place =>
        by_cases denied : place ∈ tree.unreadable
        · simp [denied, FileError.at]
        · cases found : tree.node? place with
          | none => simp [denied, found, FileError.at]
          | some node =>
              cases node with
              | directory => simp [denied, found, FileError.at]
              | link target => simp [denied, found, FileError.at]
              | file content =>
                  cases decoded : Utf8.decode content <;> simp [denied, found, decoded, held]

theorem FileTree.read_nullCharacter_iff {tree : FileTree} {path : Text} :
    tree.read path = .error .nullCharacter ↔ '\x00' ∈ path := by
  constructor
  · exact mem_of_read_nullCharacter
  · intro held
    rw [read, if_pos (by simpa using held)]

namespace Server

/-- Why the text of a document cannot be had: the server has not been initialized, or the document
is not open and its URI cannot be taken apart, its path holds a null character, or its file may be
read and is not in UTF-8. -/
inductive SourceFault (server : Server) (tree : FileTree) (uri : Text) : Fault → Prop
  | notInitialized (idle : server.documents = none) : SourceFault server tree uri .notInitialized
  | uri {documents : Table Text Text} {error : UriError}
      (initialized : server.documents = some documents)
      (closed : documents.find? (Uri.percentDecode uri) = none)
      (strange : Uri.split uri = .error error) : SourceFault server tree uri (.uri error)
  | nullCharacter {documents : Table Text Text} {path : Text}
      (initialized : server.documents = some documents)
      (closed : documents.find? (Uri.percentDecode uri) = none)
      (located : Uri.documentPath uri = .ok path)
      (held : '\x00' ∈ (Path.ofText path).toText) : SourceFault server tree uri .nullCharacter
  | malformed {documents : Table Text Text} {path : Text} {place : Location} {content : List UInt8}
      {sequence : Malformed} (initialized : server.documents = some documents)
      (closed : documents.find? (Uri.percentDecode uri) = none)
      (located : Uri.documentPath uri = .ok path)
      (clear : '\x00' ∉ (Path.ofText path).toText)
      (resolved : tree.resolve (Path.ofText path).toText = .ok place)
      (granted : place ∉ tree.unreadable) (file : tree.node? place = some (.file content))
      (broken : Utf8.decode content = .error sequence) :
      SourceFault server tree uri (.unreadable (.malformed sequence))

private theorem source_error_iff (server : Server) (tree : FileTree) (uri : Text) (fault : Fault) :
    (server.source tree uri).result = .error fault ↔ SourceFault server tree uri fault := by
  constructor
  · intro failed
    unfold source at failed
    split at failed
    · next idle =>
      obtain rfl := Except.error.inj failed
      exact .notInitialized idle
    · next documents initialized =>
      split at failed
      · simp at failed
      · next closed =>
        split at failed
        · next error strange =>
          obtain rfl := Except.error.inj failed
          exact .uri initialized closed (Uri.split_of_documentPath strange)
        · next path located =>
          split at failed
          · simp at failed
          · next refused =>
            obtain rfl := Except.error.inj failed
            exact .nullCharacter initialized closed located
              (FileTree.read_nullCharacter_iff.mp refused)
          · next sequence refused =>
            obtain rfl := Except.error.inj failed
            obtain ⟨clear, place, content, resolved, granted, file, broken⟩ :=
              FileTree.read_malformed_iff.mp refused
            exact .malformed initialized closed located clear resolved granted file broken
          · simp at failed
  · intro reason
    unfold source
    cases reason with
    | notInitialized idle => rw [idle]
    | uri initialized closed strange =>
        simp only [initialized, closed, Uri.documentPath, strange]
        rfl
    | nullCharacter initialized closed located held =>
        simp only [initialized, closed, located, FileTree.read_nullCharacter_iff.mpr held]
    | malformed initialized closed located clear resolved granted file broken =>
        have refused :=
          FileTree.read_malformed_iff.mpr ⟨clear, _, _, resolved, granted, file, broken⟩
        simp only [initialized, closed, located, refused]

/-- The answer of a question from the text of its document. -/
def present (server : Server) (uri text : Text) : Question → Reply Server Answer
  | .completion cursor => server.answerCompletion uri text cursor
  | .hover cursor => server.answerHover text cursor
  | .definition cursor =>
    server.lift (server.workspace.definition text cursor.line cursor.character) .definition
  | .highlighting => ⟨server, [], .ok (.highlighting (server.workspace.highlighting text))⟩

theorem handle_event (server : Server) (tree : FileTree) (uri : Text) (question : Question) :
    server.handle tree (question.event uri) =
      server.withSource tree uri question.absent fun text => server.present uri text question := by
  cases question <;> rfl

theorem withSource_result (server : Server) (tree : FileTree) (uri : Text) (absent : Answer)
    (present : Text → Reply Server Answer) :
    (server.withSource tree uri absent present).result =
      match (server.source tree uri).result with
      | .error fault => .error fault
      | .ok none => .ok absent
      | .ok (some text) => (present text).result := by
  unfold withSource Reply.andThen
  rcases (server.source tree uri).result with fault | _ | text
  · rfl
  · rfl
  · rfl

section Present

variable {server : Server} (wordSteady : server.workspace.settings.wordWindow.isSteady)
  (completionSteady : server.workspace.settings.completionWindow.isSteady)
  (collection : server.workspace.settings.structuralCharacters.isCollection)

include wordSteady completionSteady collection

theorem exists_answerCompletion (uri text : Text) (cursor : Cursor) :
    ∃ items, (server.answerCompletion uri text cursor).result = .ok (.completion (some items)) := by
  have kept := Workspace.step_settings server.workspace
    (.refresh uri text (text.offsetAt cursor.line cursor.character))
  simp only [Workspace.step] at kept
  obtain ⟨again, refreshed⟩ := Workspace.answers_refresh collection uri text
    (text.offsetAt cursor.line cursor.character)
  rw [← kept] at wordSteady completionSteady
  obtain ⟨items, completed⟩ :=
    Workspace.answers_complete completionSteady wordSteady text cursor.line cursor.character
  refine ⟨items, ?_⟩
  simp only [answerCompletion, lift, Reply.andThen]
  rw [refreshed]
  simp only [completed]
  rfl

/-- A question about a text fails for a URI that the definition was recorded under, and for no
other reason. -/
theorem present_error_iff (uri text : Text) (question : Question) (fault : Fault) :
    (server.present uri text question).result = .error fault ↔
      question.Strays server.workspace text fault := by
  cases question with
  | completion cursor =>
      obtain ⟨items, answered⟩ :=
        exists_answerCompletion wordSteady completionSteady collection uri text cursor
      simp [present, Question.Strays, answered]
  | hover cursor =>
      obtain ⟨found, answered⟩ :=
        (Workspace.answers_hover_iff text cursor.line cursor.character).mpr
          (Workspace.answers_wordAt wordSteady text _)
      simp [present, answerHover, Question.Strays, answered, Except.map, Except.mapError]
  | definition cursor =>
      have located := Workspace.answers_wordAt wordSteady text
        (text.offsetAt cursor.line cursor.character)
      have lifted : (server.present uri text (.definition cursor)).result = .error fault ↔
          (server.workspace.definition text cursor.line cursor.character).result =
            .error fault := by
        simp only [present, lift]
        cases (server.workspace.definition text cursor.line cursor.character).result <;>
          simp [Except.map]
      rw [lifted, Workspace.definition_error_iff]
      constructor
      · intro failed
        refine failed.resolve_left ?_
        intro unlocated
        obtain ⟨reason, failure, -⟩ := unlocated
        exact not_answers_error reason (failure ▸ located)
      · exact .inr
  | highlighting => simp [present, Question.Strays]

private theorem fits_of_present {uri text : Text} {question : Question} {answer : Answer}
    (answered : (server.present uri text question).result = .ok answer) :
    question.Fits answer := by
  cases question with
  | completion cursor =>
      obtain ⟨items, given⟩ :=
        exists_answerCompletion wordSteady completionSteady collection uri text cursor
      obtain rfl := Except.ok.inj (given.symm.trans answered)
      trivial
  | hover cursor =>
      simp only [present, answerHover] at answered
      cases shown : server.workspace.hover text cursor.line cursor.character with
      | error fault => simp [shown, Except.map, Except.mapError] at answered
      | ok found =>
          rw [shown] at answered
          obtain rfl := Except.ok.inj answered
          trivial
  | definition cursor =>
      simp only [present, lift] at answered
      cases gone : (server.workspace.definition text cursor.line cursor.character).result with
      | error fault => simp [gone, Except.map] at answered
      | ok found =>
          rw [gone] at answered
          obtain rfl := Except.ok.inj answered
          trivial
  | highlighting =>
      obtain rfl := Except.ok.inj answered
      trivial

end Present

/-- A directory with one grammar file of two bytes, of which the second is never part of UTF-8. -/
def brokenTree : FileTree where
  current := ["ws".toList]
  nodes := Table.ofList
    [(["ws".toList], .directory), (["ws".toList, "bad.tdl".toList], .file [0x41, 0xFF])]

/-- The server right after the editor has initialized it without a folder. -/
def startedServer : Server := fresh.run [(brokenTree, .started .null none [])]

private theorem source_missingFile :
    (startedServer.source brokenTree "file:///ws/good.tdl".toList).result = .ok none := by
  decide +kernel

private theorem source_brokenFile :
    (startedServer.source brokenTree "file:///ws/bad.tdl".toList).result =
      .error (.unreadable (.malformed ⟨1, 0xFF, 1, .invalidStart⟩)) := by
  decide +kernel

end Server

end GrammarLens
