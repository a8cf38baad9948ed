import GrammarLens.Proofs.Exploration

/-!
Contract: what a scan reports.

Owns:
- the file or the failure that a stop of the traversal contributes, said from the tree alone;
- reports: without a fault the visits are the contributions of the stops, in order;
- the one fault that the extension, the names and the root leave: a file right below the
  double root has no URI;
- the scan of a directory as a whole.
-/

namespace GrammarLens

/-! ## Contributions -/

/-- The URI of a visit that indexes a file. -/
def Visit.uri? : Visit → Option Text
  | indexed uri _ => some uri
  | failed _ => none

def Visit.failure? : Visit → Option ScanFailure
  | indexed _ _ => none
  | failed failure => some failure

private theorem reportOf_eq (root : Path) (visits : List Visit) :
    Workspace.reportOf root visits =
      ⟨root, visits.filterMap Visit.uri?, visits.filterMap Visit.failure?⟩ := rfl

/-- A file with the extension that was read, and the URI under which it is indexed. -/
structure ScannedFile where
  path : Path
  uri : Text
  text : Text
deriving DecidableEq, Repr

namespace Stop

variable (settings : Settings) (tree : FileTree)

/-- The file met at a stop: not a directory, with the extension, and readable. -/
def file? : Stop → Option ScannedFile
  | entry path =>
    if settings.hasExtension path.name = .ok true then
      match tree.read path.toText, Uri.ofFilePath path.toText with
      | .ok text, .ok uri => some ⟨path, uri, text⟩
      | _, _ => none
    else none
  | refused _ _ | known _ _ | entered _ _ | unlisted _ _ _ => none

/-- The failure at a stop: the check for a directory fails, the directory cannot be listed, or a
file with the extension cannot be read. -/
def failure? : Stop → Option ScanFailure
  | refused path error | unlisted path _ error => some ⟨path, error.at path.toText⟩
  | entry path =>
    if settings.hasExtension path.name = .ok true then
      match tree.read path.toText with
      | .error (.error cause) => some ⟨path, cause⟩
      | .error .nullCharacter | .ok _ => none
    else none
  | known _ _ | entered _ _ => none

/-- The visits to which a stop amounts. -/
def visits (stop : Stop) : List Visit :=
  ((stop.file? settings tree).map fun file => Visit.indexed file.uri file.text).toList ++
    ((stop.failure? settings tree).map Visit.failed).toList

end Stop

section Contributions

variable {settings : Settings} {tree : FileTree}

/-- Every way in which an entry that is not a directory can be visited. -/
theorem visitFile_cases (settings : Settings) (tree : FileTree) (path : Path) :
    (∃ fault, settings.hasExtension path.name = .error fault ∧
      Workspace.visitFile settings tree path = .error (.settings fault)) ∨
    (settings.hasExtension path.name = .ok false ∧
      Workspace.visitFile settings tree path = .ok none) ∨
    (settings.hasExtension path.name = .ok true ∧
      ((tree.read path.toText = .error .nullCharacter ∧
          Workspace.visitFile settings tree path = .error .nullCharacter) ∨
        (∃ cause, tree.read path.toText = .error (.error cause) ∧
          Workspace.visitFile settings tree path = .ok (some (.failed ⟨path, cause⟩))) ∨
        (∃ text error, tree.read path.toText = .ok text ∧
          Uri.ofFilePath path.toText = .error error ∧
          Workspace.visitFile settings tree path = .error (.uri error)) ∨
        (∃ text uri, tree.read path.toText = .ok text ∧ Uri.ofFilePath path.toText = .ok uri ∧
          Workspace.visitFile settings tree path = .ok (some (.indexed uri text))))) := by
  unfold Workspace.visitFile
  cases extension : settings.hasExtension path.name with
  | error fault => exact .inl ⟨fault, rfl, rfl⟩
  | ok given =>
      cases given with
      | false => exact .inr (.inl ⟨rfl, rfl⟩)
      | true =>
          refine .inr (.inr ⟨rfl, ?_⟩)
          cases content : tree.read path.toText with
          | error failure =>
              cases failure with
              | nullCharacter => exact .inl ⟨rfl, rfl⟩
              | error cause => exact .inr (.inl ⟨cause, rfl, rfl⟩)
          | ok text =>
              cases address : Uri.ofFilePath path.toText with
              | error error => exact .inr (.inr (.inl ⟨text, error, rfl, rfl, rfl⟩))
              | ok uri => exact .inr (.inr (.inr ⟨text, uri, rfl, rfl, rfl⟩))

theorem Stop.toList_visit {stop : Stop} {visit : Option Visit}
    (quiet : stop.visit settings tree = .ok visit) : visit.toList = stop.visits settings tree := by
  cases stop with
  | refused path error =>
      obtain rfl := Except.ok.inj quiet
      rfl
  | known path place =>
      obtain rfl := Except.ok.inj quiet
      rfl
  | entered path place =>
      obtain rfl := Except.ok.inj quiet
      rfl
  | unlisted path place error =>
      obtain rfl := Except.ok.inj quiet
      rfl
  | entry path =>
      rw [Stop.visit] at quiet
      obtain ⟨fault, -, outcome⟩ | ⟨other, outcome⟩ | ⟨extension, ⟨-, outcome⟩ |
        ⟨cause, content, outcome⟩ | ⟨text, error, -, -, outcome⟩ |
        ⟨text, uri, content, address, outcome⟩⟩ := visitFile_cases settings tree path
      · simp [outcome] at quiet
      · rw [outcome] at quiet
        obtain rfl := Except.ok.inj quiet
        simp [visits, file?, failure?, other]
      · simp [outcome] at quiet
      · rw [outcome] at quiet
        obtain rfl := Except.ok.inj quiet
        simp [visits, file?, failure?, extension, content]
      · simp [outcome] at quiet
      · rw [outcome] at quiet
        obtain rfl := Except.ok.inj quiet
        simp [visits, file?, failure?, extension, content, address]

/-- Without a fault the visits are those of all stops. -/
theorem visitStops_of_quiet {stops : List Stop} (quiet : (visitStops settings tree stops).2 = none) :
    (visitStops settings tree stops).1 = stops.flatMap (Stop.visits settings tree) := by
  induction stops with
  | nil => rfl
  | cons stop rest inductionHypothesis =>
      rw [visitStops] at quiet ⊢
      cases visited : stop.visit settings tree with
      | error fault => simp [visited] at quiet
      | ok visit =>
          simp only [visited] at quiet ⊢
          rw [List.flatMap_cons, inductionHypothesis quiet, Stop.toList_visit visited]

/-- A fault arises at a stop. -/
theorem visitStops_of_fault {stops : List Stop} {fault : Fault}
    (cut : (visitStops settings tree stops).2 = some fault) :
    ∃ stop ∈ stops, stop.visit settings tree = .error fault := by
  induction stops with
  | nil => simp [visitStops] at cut
  | cons stop rest inductionHypothesis =>
      rw [visitStops] at cut
      cases visited : stop.visit settings tree with
      | error other =>
          simp only [visited, Option.some.injEq] at cut
          exact ⟨stop, List.mem_cons_self, cut ▸ visited⟩
      | ok visit =>
          simp only [visited] at cut
          obtain ⟨later, member, failed⟩ := inductionHypothesis cut
          exact ⟨later, List.mem_cons_of_mem _ member, failed⟩

theorem Stop.filterMap_uri?_visits (stop : Stop) :
    (stop.visits settings tree).filterMap Visit.uri? =
      ((stop.file? settings tree).map ScannedFile.uri).toList := by
  unfold Stop.visits
  cases stop.file? settings tree <;> cases stop.failure? settings tree <;> rfl

theorem Stop.filterMap_failure?_visits (stop : Stop) :
    (stop.visits settings tree).filterMap Visit.failure? =
      (stop.failure? settings tree).toList := by
  unfold Stop.visits
  cases stop.file? settings tree <;> cases stop.failure? settings tree <;> rfl

/-- The report of the visits of stops lists their files and their failures. -/
theorem reportOf_flatMap_visits (root : Path) (stops : List Stop) :
    Workspace.reportOf root (stops.flatMap (Stop.visits settings tree)) =
      ⟨root, (stops.filterMap (Stop.file? settings tree)).map ScannedFile.uri,
        stops.filterMap (Stop.failure? settings tree)⟩ := by
  have indexed : (stops.flatMap (Stop.visits settings tree)).filterMap Visit.uri? =
      (stops.filterMap (Stop.file? settings tree)).map ScannedFile.uri := by
    rw [List.filterMap_flatMap, List.map_filterMap, List.filterMap_eq_flatMap_toList]
    simp only [Stop.filterMap_uri?_visits]
  have failures : (stops.flatMap (Stop.visits settings tree)).filterMap Visit.failure? =
      stops.filterMap (Stop.failure? settings tree) := by
    rw [List.filterMap_flatMap, List.filterMap_eq_flatMap_toList]
    simp only [Stop.filterMap_failure?_visits]
  rw [reportOf_eq, indexed, failures]

private theorem exists_visit_of_quiet {stops : List Stop}
    (quiet : (visitStops settings tree stops).2 = none) :
    ∀ stop ∈ stops, ∃ visit, stop.visit settings tree = .ok visit := by
  induction stops with
  | nil => simp
  | cons stop rest inductionHypothesis =>
      rw [visitStops] at quiet
      cases visited : stop.visit settings tree with
      | error fault => simp [visited] at quiet
      | ok visit =>
          simp only [visited] at quiet
          intro other member
          rcases List.mem_cons.mp member with rfl | later
          · exact ⟨visit, visited⟩
          · exact inductionHypothesis quiet other later

/-- An entry with the extension is either a file that was read or a failure. -/
def Stop.IsAccounted (settings : Settings) (tree : FileTree) (path : Path) : Prop :=
  (∃ text uri, tree.read path.toText = .ok text ∧ Uri.ofFilePath path.toText = .ok uri ∧
    (entry path).file? settings tree = some ⟨path, uri, text⟩ ∧
    (entry path).failure? settings tree = none) ∨
  (∃ cause, tree.read path.toText = .error (.error cause) ∧
    (entry path).file? settings tree = none ∧
    (entry path).failure? settings tree = some ⟨path, cause⟩)

theorem Stop.isAccounted_of_visit {path : Path} {visit : Option Visit}
    (extension : settings.hasExtension path.name = .ok true)
    (quiet : (entry path).visit settings tree = .ok visit) :
    IsAccounted settings tree path := by
  rw [Stop.visit] at quiet
  obtain ⟨fault, other, -⟩ | ⟨other, -⟩ | ⟨-, ⟨-, outcome⟩ | ⟨cause, content, -⟩ |
    ⟨text, error, -, -, outcome⟩ | ⟨text, uri, content, address, -⟩⟩ :=
    visitFile_cases settings tree path
  · simp [extension] at other
  · simp [extension] at other
  · simp [outcome] at quiet
  · exact .inr ⟨cause, content, by simp [file?, content], by simp [failure?, extension, content]⟩
  · simp [outcome] at quiet
  · exact .inl ⟨text, uri, content, address, by simp [file?, extension, content, address],
      by simp [failure?, content]⟩

end Contributions

/-! ## The fault that remains -/

namespace Uri

theorem splitNetworkPath_of_head {text : Text} (other : text.head? ≠ some '/') :
    splitNetworkPath ('/' :: text) = .ok ([], '/' :: text) := by
  unfold splitNetworkPath
  split
  · next rest same =>
    obtain rfl := (List.cons.inj same).2
    simp at other
  · rfl

/-- A path from the root has a URI, unless it is the double root or lies right below it. -/
theorem exists_ofFilePath {path : Path} (rooted : path.IsRooted)
    (deep : path.anchor = .doubleRoot → 2 ≤ path.parts.length) :
    ∃ uri, ofFilePath path.toText = .ok uri := by
  have split : ∃ pieces, splitNetworkPath path.toText = .ok pieces := by
    obtain ⟨anchor, parts⟩ := path
    cases anchor with
    | relative => exact absurd rfl rooted.anchored
    | root =>
        exact ⟨_, splitNetworkPath_of_head (Text.head?_joinWith_ne rooted.occupied rooted.plain)⟩
    | doubleRoot =>
        have slash : '/' ∈ Text.joinWith ['/'] parts := by
          rcases parts with _ | ⟨first, _ | ⟨second, others⟩⟩
          · simp at deep
          · simp at deep
          · simp [Text.joinWith]
        simp only [splitNetworkPath, Path.toText]
        rw [if_pos (by simpa using slash)]
        exact ⟨_, rfl⟩
  obtain ⟨pieces, split⟩ := split
  exact ⟨_, by rw [ofFilePath, split]; rfl⟩

theorem ofFilePath_doubleRoot {name : Text} (plain : '/' ∉ name) :
    ofFilePath (Path.toText ⟨.doubleRoot, [name]⟩) = .error .authorityWithoutPath := by
  simp [ofFilePath, splitNetworkPath, Path.toText, Text.joinWith, plain]

end Uri

section Faults

variable {settings : Settings} {tree : FileTree}

theorem FileTree.mem_of_read_nullCharacter {text : Text}
    (failed : tree.read text = .error .nullCharacter) : '\x00' ∈ text := by
  unfold read at failed
  split at failed
  · next held => simpa using held
  · split at failed
    · simp at failed
    · split at failed
      · simp at failed
      · split at failed
        · split at failed
          · simp at failed
          · simp at failed
        · simp at failed
        · simp at failed
        · simp at failed

/-- Where the extension is a text, a fault arises at an entry that has it. -/
theorem Stop.fault_cases {ending : Text} (extension : settings.fileExtension = .text ending)
    {stop : Stop} {fault : Fault} (failed : stop.visit settings tree = .error fault) :
    ∃ path, stop = .entry path ∧ ending.isSuffixOf path.name ∧
      (tree.read path.toText = .error .nullCharacter ∨
        ∃ text error, tree.read path.toText = .ok text ∧
          Uri.ofFilePath path.toText = .error error ∧ fault = .uri error) := by
  cases stop with
  | refused path error => simp [visit] at failed
  | known path place => simp [visit] at failed
  | entered path place => simp [visit] at failed
  | unlisted path place error => simp [visit] at failed
  | entry path =>
      rw [visit] at failed
      have suffix : settings.hasExtension path.name = .ok (ending.isSuffixOf path.name) := by
        rw [Settings.hasExtension, extension]
      obtain ⟨fault, other, -⟩ | ⟨-, outcome⟩ | ⟨given, ⟨content, -⟩ | ⟨cause, -, outcome⟩ |
        ⟨text, error, content, address, outcome⟩ | ⟨text, uri, -, -, outcome⟩⟩ :=
        visitFile_cases settings tree path
      · simp [suffix] at other
      · simp [outcome] at failed
      · exact ⟨path, rfl, Except.ok.inj (suffix.symm.trans given), .inl content⟩
      · simp [outcome] at failed
      · rw [outcome] at failed
        exact ⟨path, rfl, Except.ok.inj (suffix.symm.trans given),
          .inr ⟨text, error, content, address, (Except.error.inj failed).symm⟩⟩
      · simp [outcome] at failed

/-- The file that a traversal from the double root cannot name: it lies right below it. -/
structure IsNameless (tree : FileTree) (ending : Text) (start : Path) (name : Text) : Prop where
  doubleRoot : start = ⟨.doubleRoot, []⟩
  suffix : ending.isSuffixOf name
  readable : ∃ text, tree.read (start.child name).toText = .ok text

theorem Tour.fault_cases {ending : Text} (extension : settings.fileExtension = .text ending)
    (named : tree.IsNamed) {start : Path} (rooted : start.IsRooted) {home : Location}
    (found : tree.directory? start.toText = .ok (some home)) {stops : List Stop}
    (tour : Tour tree [start] [] stops) {stop : Stop} (member : stop ∈ stops) {fault : Fault}
    (failed : stop.visit settings tree = .error fault) :
    fault = .uri .authorityWithoutPath ∧
      ∃ name, stop = .entry (start.child name) ∧ IsNameless tree ending start name := by
  obtain ⟨path, rfl, suffix, reason⟩ := Stop.fault_cases extension failed
  have verdict : tree.directory? path.toText = .ok none := tour.verdict _ member
  have taken : path ∈ stops.map Stop.path := List.mem_map_of_mem member
  obtain ⟨listing, listed, name, child, rfl⟩ : ∃ listing ∈ listings stops,
      ∃ name ∈ tree.children listing.2, path = listing.1.child name := by
    rcases tour.origin path taken with waiting | found
    · rw [List.mem_singleton.mp waiting, found] at verdict
      simp at verdict
    · exact found
  have proper := isEntryName_of_mem_keys named (FileTree.mem_children.mp child)
  have parent := Tour.path_of_listing listed
  have childRooted :=
    (tour.staysWithin named (staysWithin_start rooted found) _ parent).rooted.child proper
  have noNull := FileTree.null_not_mem_child proper (tour.directory_of_listing listed)
  obtain ⟨text, error, content, address, rfl⟩ := reason.resolve_left fun refused =>
    noNull (FileTree.mem_of_read_nullCharacter refused)
  by_cases deep : (listing.1.child name).anchor = .doubleRoot →
      2 ≤ (listing.1.child name).parts.length
  · obtain ⟨uri, written⟩ := Uri.exists_ofFilePath childRooted deep
    rw [address] at written
    simp at written
  · obtain ⟨double, short⟩ := Classical.not_imp.mp deep
    rw [Path.length_parts_child] at short
    have continues : listing.1.Continues start :=
      tour.continues (by simp [Path.Continues.refl]) _ parent
    have same : listing.1 = start := continues.eq_of_length_le (by omega)
    rw [same] at suffix content address double short ⊢
    have bottom : start = ⟨.doubleRoot, []⟩ := by
      have none : start.parts = [] := List.eq_nil_of_length_eq_zero (by omega)
      calc start = ⟨start.anchor, start.parts⟩ := rfl
        _ = ⟨.doubleRoot, []⟩ := by rw [show start.anchor = .doubleRoot from double, none]
    refine ⟨?_, name, rfl, bottom, by simpa using suffix, text, content⟩
    rw [bottom] at address
    have written := Uri.ofFilePath_doubleRoot proper.2.1
    rw [Except.error.inj (address.symm.trans written)]

end Faults

/-! ## A file without a URI -/

namespace NamelessFile

def directory : Text := "a".toList

def nameless : Text := "z.tdl".toList

/-- A file in a directory, an empty directory, and after them a file right below the root. -/
def tree : FileTree where
  current := [['w', 's']]
  nodes := ⟨[
    ([directory], .directory),
    ([directory, "f.tdl".toList], .file [0x41, 0x2E, 0x78]),
    ([['w', 's']], .directory),
    ([nameless], .file [])]⟩

def root : Path := ⟨.doubleRoot, []⟩

def stops : List Stop :=
  [.entered root [], .entered (root.child directory) [directory],
    .entry ((root.child directory).child "f.tdl".toList),
    .entered (root.child ['w', 's']) [['w', 's']], .entry (root.child nameless)]

theorem list_home : tree.list [['w', 's']] = .ok [] :=
  FileTree.list_of_sorted (by decide) (by decide +kernel) (by decide)

theorem tour : Tour tree [root] [] stops := by
  have rootNames : tree.list [] = .ok [directory, ['w', 's'], nameless] :=
    FileTree.list_of_sorted (by decide) (by decide +kernel) (by decide)
  have directoryNames : tree.list [directory] = .ok ["f.tdl".toList] :=
    FileTree.list_of_sorted (by decide) (by decide +kernel) (by decide)
  apply Tour.entered (by decide +kernel) (by simp) rootNames
  apply Tour.entered (by decide +kernel) (by decide) directoryNames
  apply Tour.entry (by decide +kernel)
  apply Tour.entered (by decide +kernel) (by decide) list_home
  apply Tour.entry (by decide +kernel)
  exact .done _

def uri : Text := "file://a/f.tdl".toList

def text : Text := "A.x".toList

/-- The file in the directory is taken in before the one without a URI ends the traversal. -/
theorem traverse_eq :
    Workspace.traverse .standard tree [root] [] =
      ([.indexed uri text], some (.uri .authorityWithoutPath)) := by
  rw [tour.traverse_eq]
  decide +kernel

theorem found : tree.directory? (Workspace.scanStart tree root).toText = .ok (some []) := by
  decide +kernel

theorem scanOutcome_eq :
    Workspace.scanOutcome .standard tree root =
      ([.indexed uri text], some (.uri .authorityWithoutPath)) := by
  rw [Workspace.scanOutcome, found]
  exact traverse_eq

/-- So the scan leaves the file in the directory indexed, and the union of attributes behind. -/
theorem run_eq :
    (Workspace.empty .standard).run [.scan tree root] =
      ((Workspace.empty .standard).addRoot root).takeIn (.indexed uri text) := by
  obtain ⟨error, checked, -⟩ | ⟨checked, -⟩ | ⟨place, visits, fault, -, gone, ended⟩ |
    ⟨place, visits, -, gone, -⟩ := Workspace.scan_cases (Workspace.empty .standard) tree root
  · simp [found] at checked
  · simp [found] at checked
  · obtain ⟨rfl, -⟩ := Prod.mk.inj (gone.symm.trans traverse_eq)
    exact congrArg Reply.state ended
  · have quiet := (Prod.mk.inj (gone.symm.trans traverse_eq)).2
    simp at quiet

/-- The empty directory. -/
def home : Path := ⟨.root, [['w', 's']]⟩

theorem home_found :
    tree.directory? (Workspace.scanStart tree home).toText = .ok (some [['w', 's']]) := by
  decide +kernel

theorem traverse_home (settings : Settings) :
    Workspace.traverse settings tree [home] [] = ([], none) := by
  have tour : Tour tree [home] [] [.entered home [['w', 's']]] :=
    .entered home_found (by simp) list_home (.done _)
  rw [tour.traverse_eq]
  rfl

end NamelessFile

/-! ## A directory beyond the limit -/

namespace LinkMaze

/-- A target that is reached through twenty links. -/
def detour (target : Text) : Text := (List.replicate 20 ['a', '/']).flatten ++ target

def top : Location := [['w', 's'], ['r']]

def first : Location := [['w', 's'], ['x'], ['d']]

def second : Location := [['w', 's'], ['x'], ['e']]

/-- The first directory is linked from the top twice, once by a detour. It holds a link to the
second directory, by a detour too. -/
def tree : FileTree where
  current := [['w', 's']]
  nodes := ⟨[
    ([['w', 's']], .directory),
    (top, .directory),
    ([['w', 's'], ['x']], .directory),
    ([['w', 's'], ['x'], ['a']], .link ['.']),
    (first, .directory),
    (second, .directory),
    (second ++ ["f.tdl".toList], .file [0x41, 0x2E, 0x62]),
    (first ++ [['l']], .link ("../".toList ++ detour ['e'])),
    (top ++ [['l']], .link ("../x/".toList ++ detour ['d'])),
    (top ++ [['m']], .link "../x/d".toList)]⟩

def root : Path := ⟨.root, top⟩

/-- The entry of the first directory is met below the detour only, where the links that are left
do not suffice. -/
def stops : List Stop :=
  [.entered root top, .entered (root.child ['l']) first,
    .entry ((root.child ['l']).child ['l']), .known (root.child ['m']) first]

theorem tour : Tour tree [root] [] stops := by
  have topNames : tree.list top = .ok [['l'], ['m']] :=
    FileTree.list_of_sorted (by decide) (by decide +kernel) (by decide)
  have firstNames : tree.list first = .ok [['l']] :=
    FileTree.list_of_sorted (by decide) (by decide +kernel) (by decide)
  apply Tour.entered (by decide +kernel) (by simp) topNames
  apply Tour.entered (by decide +kernel) (by decide) firstNames
  apply Tour.entry (by decide +kernel)
  apply Tour.known (by decide +kernel) (by simp)
  exact .done _

private theorem reaches_second : tree.Reaches top second := by
  have toFirst : tree.EntryLeadsTo top ['m'] first :=
    ⟨by decide +kernel, ⟨40, by decide +kernel⟩, by decide +kernel⟩
  have toSecond : tree.EntryLeadsTo first ['l'] second :=
    ⟨by decide +kernel, ⟨40, by decide +kernel⟩, by decide +kernel⟩
  exact (Relation.ReflTransGen.single ⟨_, toFirst⟩).tail ⟨_, toSecond⟩

end LinkMaze

/-! ## Scanning a directory -/

/-- A report accounts for stops: it lists their files and their failures in order, and every
entry with the extension is one or the other. -/
structure ScanReport.Accounts (report : ScanReport) (settings : Settings) (tree : FileTree)
    (stops : List Stop) : Prop where
  indexed : report.indexed = (stops.filterMap (Stop.file? settings tree)).map ScannedFile.uri
  failures : report.failures = stops.filterMap (Stop.failure? settings tree)
  entries : ∀ path, .entry path ∈ stops → settings.hasExtension path.name = .ok true →
    Stop.IsAccounted settings tree path

namespace Workspace

section Scanning

variable {workspace : Workspace} {tree : FileTree} {root : Path} {home : Location}
  {stops : List Stop} (found : tree.directory? (scanStart tree root).toText = .ok (some home))
  (tour : Tour tree [scanStart tree root] [] stops)

include found tour

theorem scan_result_of_quiet (quiet : (visitStops workspace.settings tree stops).2 = none) :
    (workspace.scan tree root).result =
      .ok ⟨scanStart tree root,
        (stops.filterMap (Stop.file? workspace.settings tree)).map ScannedFile.uri,
        stops.filterMap (Stop.failure? workspace.settings tree)⟩ := by
  obtain ⟨error, checked, -⟩ | ⟨checked, -⟩ | ⟨place, visits, fault, -, gone, -⟩ |
    ⟨place, visits, -, gone, ended⟩ := scan_cases workspace tree root
  · simp [found] at checked
  · simp [found] at checked
  · rw [tour.traverse_eq] at gone
    simp [gone] at quiet
  · rw [tour.traverse_eq] at gone
    have all : visits = stops.flatMap (Stop.visits workspace.settings tree) :=
      (congrArg Prod.fst gone).symm.trans (visitStops_of_quiet quiet)
    rw [ended]
    show Except.ok (reportOf (scanStart tree root) visits) = _
    rw [all, reportOf_flatMap_visits]

private theorem scan_result_of_fault {fault : Fault}
    (cut : (visitStops workspace.settings tree stops).2 = some fault) :
    (workspace.scan tree root).result = .error fault := by
  obtain ⟨error, checked, -⟩ | ⟨checked, -⟩ | ⟨place, visits, fault, -, gone, ended⟩ |
    ⟨place, visits, -, gone, -⟩ := scan_cases workspace tree root
  · simp [found] at checked
  · simp [found] at checked
  · rw [tour.traverse_eq] at gone
    rw [gone] at cut
    rw [ended, Option.some.inj cut]
  · rw [tour.traverse_eq] at gone
    simp [gone] at cut

end Scanning

end Workspace

end GrammarLens
