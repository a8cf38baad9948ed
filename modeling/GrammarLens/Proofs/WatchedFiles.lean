import GrammarLens.Proofs.Questions
import GrammarLens.Workspace.Run
import Mathlib.Data.List.ReduceOption

/-!
Contract: what the changes of watched files do to a server.

Owns:
- the three ways in which a path can be found, one of which always applies: it holds a text, nothing
  is there, or the system refuses to tell or to read;
- the operation that the change of one file means, if any;
- changes are followed one after the other, and none of them fails. What cannot be read leaves the
  workspace as it was and does not keep later changes from being followed.

Does not own: URIs that cannot be taken apart.
-/

namespace GrammarLens

/-! ## How a path is found -/

namespace FileTree

/-- A path leads to a readable file in UTF-8, whose text has newlines for line ends. -/
structure Holds (tree : FileTree) (path text : Text) : Prop where
  clear : '\x00' ∉ path
  content : ∃ place bytes decoded, tree.resolve path = .ok place ∧ place ∉ tree.unreadable ∧
    tree.node? place = some (.file bytes) ∧ Utf8.decode bytes = .ok decoded ∧
    text = decoded.plainLineEnds

/-- Nothing is at a path: it holds a null character, or it leads nowhere. -/
def Lacks (tree : FileTree) (path : Text) : Prop :=
  '\x00' ∈ path ∨ tree.resolve path = .error .missing ∨ tree.resolve path = .error .notADirectory ∨
    tree.resolve path = .error .tooManyLinks

/-- The system refuses a path: the check whether something is there fails, or what is there may
not be read, or it is no file, or the bytes of the file are not UTF-8. -/
structure Refuses (tree : FileTree) (path : Text) : Prop where
  clear : '\x00' ∉ path
  reason : (∃ error, tree.resolve path = .error error ∧ error.isAbsence = false) ∨
    ∃ place, tree.resolve path = .ok place ∧ (place ∈ tree.unreadable ∨
      ∀ bytes text, tree.node? place = some (.file bytes) → Utf8.decode bytes ≠ .ok text)

variable {tree : FileTree} {path : Text}

private theorem holds_or_lacks_or_refuses (tree : FileTree) (path : Text) :
    (∃ text, tree.Holds path text) ∨ tree.Lacks path ∨ tree.Refuses path := by
  by_cases held : '\x00' ∈ path
  · exact .inr (.inl (.inl held))
  · cases resolved : tree.resolve path with
    | error error =>
        cases error with
        | missing => exact .inr (.inl (.inr (.inl resolved)))
        | notADirectory => exact .inr (.inl (.inr (.inr (.inl resolved))))
        | tooManyLinks => exact .inr (.inl (.inr (.inr (.inr resolved))))
        | permissionDenied => exact .inr (.inr ⟨held, .inl ⟨_, resolved, rfl⟩⟩)
        | isADirectory => exact .inr (.inr ⟨held, .inl ⟨_, resolved, rfl⟩⟩)
        | nameTooLong => exact .inr (.inr ⟨held, .inl ⟨_, resolved, rfl⟩⟩)
    | ok place =>
        by_cases denied : place ∈ tree.unreadable
        · exact .inr (.inr ⟨held, .inr ⟨place, resolved, .inl denied⟩⟩)
        · by_cases readable : ∃ bytes decoded, tree.node? place = some (.file bytes) ∧
              Utf8.decode bytes = .ok decoded
          · obtain ⟨bytes, decoded, file, text⟩ := readable
            exact .inl ⟨_, held, place, bytes, decoded, resolved, denied, file, text, rfl⟩
          · refine .inr (.inr ⟨held, .inr ⟨place, resolved, .inr ?_⟩⟩)
            intro bytes text file decoded
            exact readable ⟨bytes, text, file, decoded⟩

theorem read_eq_ok_iff {text : Text} : tree.read path = .ok text ↔ tree.Holds path text := by
  constructor
  · intro content
    unfold read at content
    split at content
    · simp at content
    · next clear =>
      split at content
      · simp at content
      · next place resolved =>
        split at content
        · simp at content
        · next granted =>
          split at content
          · next bytes file =>
            split at content
            · next decoded utf8 =>
              refine ⟨by simpa using clear, place, bytes, decoded, resolved, granted, file, utf8, ?_⟩
              exact (Except.ok.inj content).symm
            · simp at content
          · simp at content
          · simp at content
          · simp at content
  · intro holds
    obtain ⟨place, bytes, decoded, resolved, granted, file, utf8, rfl⟩ := holds.content
    rw [read, if_neg (by simpa using holds.clear)]
    simp only [resolved, granted, if_false, file, utf8]

section Checks

variable (clear : '\x00' ∉ path)

include clear

theorem locate?_of_resolved {place : Location} (resolved : tree.resolve path = .ok place) :
    tree.locate? path = .ok (some place) := by
  rw [locate?, if_neg (by simpa using clear), resolved]

theorem locate?_of_unresolved {error : FileError} (unresolved : tree.resolve path = .error error) :
    tree.locate? path = if error.isAbsence then .ok none else .error error := by
  rw [locate?, if_neg (by simpa using clear), unresolved]

end Checks

theorem Holds.locate?_eq {text : Text} (holds : tree.Holds path text) :
    ∃ place, tree.locate? path = .ok (some place) := by
  obtain ⟨place, _, _, resolved, _⟩ := holds.content
  exact ⟨place, locate?_of_resolved holds.clear resolved⟩

theorem Lacks.locate?_eq (lacks : tree.Lacks path) : tree.locate? path = .ok none := by
  by_cases held : '\x00' ∈ path
  · rw [locate?, if_pos (by simpa using held)]
  · rcases lacks.resolve_left held with unresolved | unresolved | unresolved
    · exact locate?_of_unresolved held unresolved
    · exact locate?_of_unresolved held unresolved
    · exact locate?_of_unresolved held unresolved

/-- Where the system refuses a path, the check fails or the file cannot be read. A null character
is not what keeps it from being read. -/
theorem Refuses.failed (refuses : tree.Refuses path) :
    (∃ error, tree.locate? path = .error error) ∨
      ∃ place cause, tree.locate? path = .ok (some place) ∧
        tree.read path = .error (.error cause) := by
  cases refuses.reason with
  | inl failing =>
      obtain ⟨error, unresolved, loud⟩ := failing
      left
      refine ⟨error, ?_⟩
      rw [locate?_of_unresolved refuses.clear unresolved, loud]
      rfl
  | inr standing =>
      obtain ⟨place, resolved, unread⟩ := standing
      right
      refine ⟨place, ?_⟩
      cases content : tree.read path with
      | error failure =>
          cases failure with
          | error cause => exact ⟨cause, locate?_of_resolved refuses.clear resolved, rfl⟩
          | nullCharacter => exact absurd (read_nullCharacter_iff.mp content) refuses.clear
      | ok text =>
          have holds := read_eq_ok_iff.mp content
          obtain ⟨other, bytes, decoded, again, granted, file, utf8, _⟩ := holds.content
          obtain rfl := Except.ok.inj (resolved.symm.trans again)
          exact absurd utf8 (unread.resolve_left granted bytes decoded file)

end FileTree

/-! ## Changes -/

namespace Server

open Workspace (Operation)

/-- What the change of a file means for a workspace whose files have a given ending: it is indexed
with the text that it holds, or removed when it is gone, or nothing is done. Nothing is done about a
file with another ending or outside the file system, or about one that the system refuses. -/
inductive Means (tree : FileTree) (ending uri : Text) : Option Operation → Prop
  | foreign (other : ¬ ending <:+ uri) : Means tree ending uri none
  | pathless (named : ending <:+ uri) (nowhere : Uri.filePath? uri = .ok none) :
      Means tree ending uri none
  | held {written text : Text} (named : ending <:+ uri)
      (located : Uri.filePath? uri = .ok (some written))
      (holds : tree.Holds (Path.ofText written).toText text) :
      Means tree ending uri (some (.update uri text))
  | gone {written : Text} (named : ending <:+ uri)
      (located : Uri.filePath? uri = .ok (some written))
      (lacks : tree.Lacks (Path.ofText written).toText) :
      Means tree ending uri (some (.remove uri))
  | refused {written : Text} (named : ending <:+ uri)
      (located : Uri.filePath? uri = .ok (some written))
      (refuses : tree.Refuses (Path.ofText written).toText) :
      Means tree ending uri none

section Changes

variable {tree : FileTree} {ending : Text}

/-- A change of a file with a URI that can be taken apart means something. -/
theorem exists_means {uri : Text}
    (parted : ending <:+ uri → ∃ found, Uri.filePath? uri = .ok found) :
    ∃ operation, Means tree ending uri operation := by
  by_cases named : ending <:+ uri
  · obtain ⟨found, located⟩ := parted named
    cases found with
    | none => exact ⟨_, .pathless named located⟩
    | some written =>
        rcases tree.holds_or_lacks_or_refuses (Path.ofText written).toText with
          ⟨text, holds⟩ | lacks | refuses
        · exact ⟨_, .held named located holds⟩
        · exact ⟨_, .gone named located lacks⟩
        · exact ⟨_, .refused named located refuses⟩
  · exact ⟨_, .foreign named⟩

/-- Following a change does what the change means, and nothing else, without a fault. -/
theorem handleFile_of_means {workspace : Workspace}
    (extension : workspace.settings.fileExtension = .text ending) {uri : Text}
    {operation : Option Operation} (means : Means tree ending uri operation) :
    (handleFile workspace tree uri).state = workspace.run operation.toList ∧
      (handleFile workspace tree uri).result = .ok () := by
  have suffix : workspace.settings.hasExtension uri = .ok (ending.isSuffixOf uri) := by
    rw [Settings.hasExtension, extension]
  unfold handleFile
  cases means with
  | foreign other =>
      have unlike : ending.isSuffixOf uri = false :=
        Bool.eq_false_iff.mpr fun like => other (List.isSuffixOf_iff_suffix.mp like)
      rw [suffix, unlike]
      exact ⟨rfl, rfl⟩
  | pathless named nowhere =>
      rw [suffix, List.isSuffixOf_iff_suffix.mpr named, nowhere]
      exact ⟨rfl, rfl⟩
  | held named located holds =>
      obtain ⟨place, found⟩ := holds.locate?_eq
      rw [suffix, List.isSuffixOf_iff_suffix.mpr named, located]
      simp only [found, FileTree.read_eq_ok_iff.mpr holds]
      exact ⟨rfl, trivial⟩
  | gone named located lacks =>
      rw [suffix, List.isSuffixOf_iff_suffix.mpr named, located]
      simp only [lacks.locate?_eq]
      exact ⟨rfl, trivial⟩
  | refused named located refuses =>
      rw [suffix, List.isSuffixOf_iff_suffix.mpr named, located]
      rcases refuses.failed with ⟨error, failed⟩ | ⟨place, cause, found, unread⟩
      · simp only [failed]
        exact ⟨rfl, trivial⟩
      · simp only [found, unread]
        exact ⟨rfl, trivial⟩

/-- Changes are followed in order. One that means nothing changes nothing and stops nothing. -/
theorem handleFiles_of_means {uris : List Text} {operations : List (Option Operation)}
    (meanings : List.Forall₂ (Means tree ending) uris operations) {workspace : Workspace}
    (extension : workspace.settings.fileExtension = .text ending) :
    (handleFiles workspace tree uris).state = workspace.run operations.reduceOption ∧
      (handleFiles workspace tree uris).result = .ok () := by
  induction meanings generalizing workspace with
  | nil => exact ⟨rfl, rfl⟩
  | @cons uri operation rest others means _ inductionHypothesis =>
      have first := handleFile_of_means extension means
      have kept : (workspace.run operation.toList).settings.fileExtension = .text ending := by
        rw [Workspace.run_settings]
        exact extension
      have joined : workspace.run (operation :: others).reduceOption =
          (workspace.run operation.toList).run others.reduceOption := by
        cases operation with
        | none => rfl
        | some operation => rfl
      rw [joined, handleFiles, Reply.andThen, first.2]
      simp only [first.1]
      exact inductionHypothesis kept

end Changes

/-- Changes of watched files never fail, and the server does in order what each of them means,
whatever the others mean. This takes for granted that the URIs with the ending of the workspace's
files can be taken apart. -/
theorem handle_watched (server : Server) (tree : FileTree) (uris : List Text) {ending : Text}
    (extension : server.workspace.settings.fileExtension = .text ending)
    (parted : ∀ uri ∈ uris, ending <:+ uri → ∃ found, Uri.filePath? uri = .ok found) :
    (∃ operations, List.Forall₂ (Means tree ending) uris operations) ∧
      ∀ operations, List.Forall₂ (Means tree ending) uris operations →
        (server.handle tree (.watched uris)).result = .ok .done ∧
          (server.handle tree (.watched uris)).state =
            server.withWorkspace (server.workspace.run operations.reduceOption) := by
  refine ⟨?_, ?_⟩
  · induction uris with
    | nil => exact ⟨[], .nil⟩
    | cons uri rest inductionHypothesis =>
        obtain ⟨operation, means⟩ := exists_means (parted uri (.head rest))
        obtain ⟨operations, meanings⟩ :=
          inductionHypothesis fun other later => parted other (.tail uri later)
        exact ⟨operation :: operations, .cons means meanings⟩
  · intro operations meanings
    have followed := handleFiles_of_means meanings extension
    refine ⟨?_, ?_⟩
    · rw [handle, lift, followed.2]
      rfl
    · rw [handle, lift, followed.1]

namespace MixedChanges

/-- A directory with a file, with a directory that is named like a file, and with bytes that are
not UTF-8. -/
def tree : FileTree where
  current := []
  nodes := ⟨[
    (["ws".toList], .directory),
    (["ws".toList, "a.tdl".toList], .file [0x41, 0x2E, 0x62, 0x0D, 0x0A]),
    (["ws".toList, "d.tdl".toList], .directory),
    (["ws".toList, "bad.tdl".toList], .file [0x41, 0xFF])]⟩

def held : Text := "file:///ws/a.tdl".toList

def malformed : Text := "file:///ws/bad.tdl".toList

def gone : Text := "file:///ws/gone.tdl".toList

/-- A path with a name that is too long for a file. -/
def longPath : Text := '/' :: List.replicate 300 'n' ++ ".tdl".toList

def long : Text := "file://".toList ++ longPath

def uris : List Text :=
  [malformed, "file:///ws/a.txt".toList, gone, "file:///ws/d.tdl".toList,
    "untitled:n.tdl".toList, long, held]

def operations : List (Option Operation) :=
  [none, none, some (.remove gone), none, none, none, some (.update held "A.b\n".toList)]

/-- A server that has indexed the malformed file and the file that is gone. -/
def server : Server :=
  ⟨(Workspace.empty .standard).run
    [.update malformed "B.c".toList, .update gone "C.d".toList], some ⟨[]⟩⟩

private theorem meanings : List.Forall₂ (Means tree ".tdl".toList) uris operations := by
  refine .cons ?malformed (.cons ?foreign (.cons ?gone (.cons ?directory (.cons ?pathless
    (.cons ?long (.cons ?held .nil))))))
  case malformed =>
    have content : tree.node? ["ws".toList, "bad.tdl".toList] = some (.file [0x41, 0xFF]) := by
      decide +kernel
    have resolved : tree.resolve "/ws/bad.tdl".toList = .ok ["ws".toList, "bad.tdl".toList] := by
      decide +kernel
    have located : Uri.filePath? malformed = .ok (some "/ws/bad.tdl".toList) := by decide +kernel
    refine .refused (by decide +kernel) located ⟨by decide +kernel, .inr ⟨_, resolved, .inr ?_⟩⟩
    intro bytes text file
    obtain rfl : [0x41, 0xFF] = bytes := Node.file.inj (Option.some.inj (content.symm.trans file))
    have invalid : (Utf8.decode [0x41, 0xFF]).isOk = false := by decide +kernel
    intro decoded
    rw [decoded] at invalid
    cases invalid
  case foreign => exact .foreign (by decide +kernel)
  case gone =>
    have located : Uri.filePath? gone = .ok (some "/ws/gone.tdl".toList) := by decide +kernel
    exact .gone (by decide +kernel) located (.inr (.inl (by decide +kernel)))
  case directory =>
    have content : tree.node? ["ws".toList, "d.tdl".toList] = some .directory := by decide +kernel
    have resolved : tree.resolve "/ws/d.tdl".toList = .ok ["ws".toList, "d.tdl".toList] := by
      decide +kernel
    have located : Uri.filePath? "file:///ws/d.tdl".toList = .ok (some "/ws/d.tdl".toList) := by
      decide +kernel
    refine .refused (by decide +kernel) located ⟨by decide +kernel, .inr ⟨_, resolved, .inr ?_⟩⟩
    intro bytes text file
    cases content.symm.trans file
  case pathless => exact .pathless (by decide +kernel) (by decide +kernel)
  case long =>
    have located : Uri.filePath? long = .ok (some longPath) := by decide +kernel
    have refused : tree.resolve (Path.ofText longPath).toText = .error .nameTooLong := by
      decide +kernel
    exact .refused (by decide +kernel) located ⟨by decide +kernel, .inl ⟨_, refused, rfl⟩⟩
  case held =>
    have located : Uri.filePath? held = .ok (some "/ws/a.tdl".toList) := by decide +kernel
    exact .held (by decide +kernel) located ⟨by decide +kernel, ["ws".toList, "a.tdl".toList],
      [0x41, 0x2E, 0x62, 0x0D, 0x0A], "A.b\r\n".toList, by decide +kernel, by decide,
      by decide +kernel, by decide +kernel, by decide +kernel⟩

end MixedChanges

theorem handle_watched_mixedChanges :
    MixedChanges.server.workspace.settings.fileExtension = .text ".tdl".toList ∧
      (MixedChanges.server.handle MixedChanges.tree (.watched MixedChanges.uris)).result =
        .ok .done ∧
      (MixedChanges.server.handle MixedChanges.tree (.watched MixedChanges.uris)).state =
        MixedChanges.server.withWorkspace (MixedChanges.server.workspace.run
          [.remove MixedChanges.gone, .update MixedChanges.held "A.b\n".toList]) := by
  have extension : MixedChanges.server.workspace.settings.fileExtension =
      .text ".tdl".toList := by
    rw [MixedChanges.server, Workspace.run_settings]
    rfl
  have parted : ∀ uri ∈ MixedChanges.uris, ∃ found, Uri.filePath? uri = .ok found := by
    have all : MixedChanges.uris.all (fun uri => (Uri.filePath? uri).isOk) = true := by
      decide +kernel
    intro uri watched
    have one := List.all_eq_true.mp all uri watched
    cases found : Uri.filePath? uri with
    | ok path => exact ⟨path, rfl⟩
    | error error => simp [found, Except.isOk, Except.toBool] at one
  have followed := (handle_watched MixedChanges.server MixedChanges.tree MixedChanges.uris
    extension fun uri watched _ => parted uri watched).2 _ MixedChanges.meanings
  have said : MixedChanges.operations.reduceOption =
      [.remove MixedChanges.gone, .update MixedChanges.held "A.b\n".toList] := rfl
  rw [said] at followed
  exact ⟨extension, followed⟩

end Server

end GrammarLens
