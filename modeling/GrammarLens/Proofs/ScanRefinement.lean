import GrammarLens.Proofs.ScanReport

/-!
Contract: a scan does what single updates of the files in its report do.

Owns:
- updating files one after the other, and what that does to the tables;
- the files behind a report: read from the tree, in the order of the report, and apart from
  the failures;
- the refinement: after any run, a scan that returns a report leaves the tables of the updates.
  The union of attributes, which a scan forms once at its end, is that of the updates too, unless
  it was behind and there is nothing to update.

Does not own: which files a scan meets.
-/

namespace GrammarLens

/-! ## Updating files -/

/-- The changes that updating a file amounts to. -/
def ScannedFile.changes (file : ScannedFile) : List Change := Change.ofText file.uri file.text

namespace Workspace

/-- Updates files, each with its tags, one after the other. -/
def updateFiles (workspace : Workspace) (files : List ScannedFile) : Workspace :=
  files.foldl (fun known file => known.updateWithTags file.uri file.text) workspace

@[simp]
theorem updateFiles_cons (workspace : Workspace) (file : ScannedFile) (rest : List ScannedFile) :
    workspace.updateFiles (file :: rest) =
      (workspace.updateWithTags file.uri file.text).updateFiles rest := rfl

theorem updateFiles_tables (workspace : Workspace) (files : List ScannedFile) :
    (workspace.updateFiles files).tables =
      workspace.tables.afterAll (files.flatMap ScannedFile.changes) := by
  induction files generalizing workspace with
  | nil => rfl
  | cons file rest inductionHypothesis =>
      rw [updateFiles_cons, inductionHypothesis, updateWithTags_tables, List.flatMap_cons,
        Tables.afterAll_append]
      rfl

private theorem updateFiles_settings (workspace : Workspace) (files : List ScannedFile) :
    (workspace.updateFiles files).settings = workspace.settings := by
  induction files generalizing workspace with
  | nil => rfl
  | cons file rest inductionHypothesis =>
      rw [updateFiles_cons, inductionHypothesis]
      exact register_settings workspace file.uri file.text

theorem updateWithTags_isUnited (workspace : Workspace) (uri text : Text) :
    (workspace.updateWithTags uri text).IsUnited :=
  rebuild_isUnited (workspace.register uri text)

/-- Updates leave the union of attributes current, if it was or if there is an update. -/
theorem updateFiles_isUnited {workspace : Workspace} {files : List ScannedFile}
    (current : workspace.IsUnited ∨ files ≠ []) : (workspace.updateFiles files).IsUnited := by
  induction files generalizing workspace with
  | nil => exact current.resolve_right (by simp)
  | cons file rest inductionHypothesis =>
      exact inductionHypothesis (.inl (updateWithTags_isUnited workspace file.uri file.text))

end Workspace

/-! ## The files behind a report -/

section Files

variable {settings : Settings} {tree : FileTree}

theorem Stop.file?_eq_some {stop : Stop} {file : ScannedFile}
    (met : stop.file? settings tree = some file) :
    stop = .entry file.path ∧ tree.read file.path.toText = .ok file.text ∧
      Uri.ofFilePath file.path.toText = .ok file.uri := by
  cases stop with
  | entry path =>
      rw [file?] at met
      split at met
      · split at met
        · next content address =>
          obtain rfl := Option.some.inj met
          exact ⟨rfl, content, address⟩
        · simp at met
      · simp at met
  | refused path error => simp [file?] at met
  | known path place => simp [file?] at met
  | entered path place => simp [file?] at met
  | unlisted path place error => simp [file?] at met

theorem Stop.failure?_eq_some {stop : Stop} {failure : ScanFailure}
    (met : stop.failure? settings tree = some failure) :
    stop.path = failure.path ∧
      (stop.verdict ≠ .ok none ∨ ∃ cause, tree.read failure.path.toText = .error cause) := by
  cases stop with
  | refused path error =>
      obtain rfl := Option.some.inj met
      exact ⟨rfl, .inl (by simp [verdict])⟩
  | unlisted path place error =>
      obtain rfl := Option.some.inj met
      exact ⟨rfl, .inl (by simp [verdict])⟩
  | entry path =>
      rw [failure?] at met
      split at met
      · split at met
        · next cause content =>
          obtain rfl := Option.some.inj met
          exact ⟨rfl, .inr ⟨_, content⟩⟩
        · simp at met
        · simp at met
      · simp at met
  | known path place => simp [failure?] at met
  | entered path place => simp [failure?] at met

theorem Stop.flatMap_changes_visits (stop : Stop) :
    (stop.visits settings tree).flatMap Visit.changes =
      (stop.file? settings tree).toList.flatMap ScannedFile.changes := by
  unfold Stop.visits
  cases stop.file? settings tree <;> cases stop.failure? settings tree <;> rfl

/-- The visits of stops change the tables as the files among the stops do. -/
theorem changes_flatMap_visits (stops : List Stop) :
    (stops.flatMap (Stop.visits settings tree)).flatMap Visit.changes =
      (stops.filterMap (Stop.file? settings tree)).flatMap ScannedFile.changes := by
  rw [List.flatMap_assoc, List.filterMap_eq_flatMap_toList, List.flatMap_assoc]
  simp only [Stop.flatMap_changes_visits]

end Files

/-- The files that a report lists as indexed, with the texts that the tree holds for them. No
file of a failure is among them. -/
structure ScanReport.Indexes (report : ScanReport) (tree : FileTree)
    (files : List ScannedFile) : Prop where
  indexed : report.indexed = files.map ScannedFile.uri
  contents : ∀ file ∈ files, tree.read file.path.toText = .ok file.text ∧
    Uri.ofFilePath file.path.toText = .ok file.uri
  apart : ∀ file ∈ files, ∀ failure ∈ report.failures, failure.path ≠ file.path

theorem Tour.indexes {tree : FileTree} {pending : List Path} {visited : List Location}
    {stops : List Stop} (tour : Tour tree pending visited stops) (settings : Settings)
    (root : Path) :
    (Workspace.reportOf root (stops.flatMap (Stop.visits settings tree))).Indexes tree
      (stops.filterMap (Stop.file? settings tree)) where
  indexed := by rw [reportOf_flatMap_visits]
  contents := by
    intro file member
    obtain ⟨stop, -, met⟩ := List.mem_filterMap.mp member
    exact (Stop.file?_eq_some met).2
  apart := by
    intro file member failure failed same
    rw [reportOf_flatMap_visits] at failed
    obtain ⟨stop, present, met⟩ := List.mem_filterMap.mp member
    obtain ⟨rfl, content, -⟩ := Stop.file?_eq_some met
    obtain ⟨other, otherPresent, otherMet⟩ := List.mem_filterMap.mp failed
    obtain ⟨path, reason⟩ := Stop.failure?_eq_some otherMet
    rcases reason with different | ⟨cause, unreadable⟩
    · -- The check of one path has one answer.
      have checked := tour.verdict other otherPresent
      have quiet : tree.directory? file.path.toText = .ok none := tour.verdict _ present
      rw [path, same, quiet] at checked
      exact different checked.symm
    · rw [same, content] at unreadable
      simp at unreadable

/-- A traversal that no fault cuts short goes through the stops of a tour. -/
theorem exists_tour_of_traverse {settings : Settings} {tree : FileTree} {pending : List Path}
    {visits : List Visit} (gone : Workspace.traverse settings tree pending [] = (visits, none)) :
    ∃ stops, Tour tree pending [] stops ∧
      visits = stops.flatMap (Stop.visits settings tree) := by
  obtain ⟨stops, tour⟩ := exists_tour tree pending []
  have stopped := (tour.traverse_eq settings).symm.trans gone
  have quiet : (visitStops settings tree stops).2 = none := by rw [stopped]
  exact ⟨stops, tour, (congrArg Prod.fst stopped).symm.trans (visitStops_of_quiet quiet)⟩

namespace Workspace

theorem scan_roots (workspace : Workspace) (tree : FileTree) (root : Path) :
    (workspace.scan tree root).state.roots = (workspace.addRoot (scanStart tree root)).roots := by
  obtain ⟨error, -, ended⟩ | ⟨-, ended⟩ | ⟨place, visits, fault, -, -, ended⟩ |
    ⟨place, visits, -, -, ended⟩ := scan_cases workspace tree root
  · rw [ended]
  · rw [ended]
  · rw [ended]
    exact (foldl_takeIn_frame visits _).2
  · rw [ended]
    exact (foldl_takeIn_frame visits _).2

/-- A report stands for files whose updates give the tables that the scan leaves. The union of
attributes is formed, or the root is not a directory and the union is left alone. -/
theorem exists_files_of_scan {workspace : Workspace} {tree : FileTree} {root : Path}
    {report : ScanReport} (returned : (workspace.scan tree root).result = .ok report) :
    ∃ files, report.Indexes tree files ∧
      (workspace.scan tree root).state.tables = (workspace.updateFiles files).tables ∧
      ((workspace.scan tree root).state.IsUnited ∨
        files = [] ∧ tree.directory? (scanStart tree root).toText = .ok none ∧
          (workspace.scan tree root).state.attributes = workspace.attributes) := by
  obtain ⟨error, -, ended⟩ | ⟨checked, ended⟩ | ⟨place, visits, fault, -, -, ended⟩ |
    ⟨place, visits, checked, gone, ended⟩ := scan_cases workspace tree root
  · simp [ended] at returned
  · rw [ended] at returned ⊢
    obtain rfl := Except.ok.inj returned
    refine ⟨[], ⟨rfl, by simp, by simp⟩, addRoot_tables .., .inr ⟨rfl, checked, ?_⟩⟩
    rw [addRoot_eq]
  · simp [ended] at returned
  · obtain ⟨stops, tour, all⟩ := exists_tour_of_traverse gone
    rw [ended] at returned ⊢
    obtain rfl := Except.ok.inj returned
    refine ⟨stops.filterMap (Stop.file? workspace.settings tree), ?_, ?_,
      .inl (rebuild_isUnited _)⟩
    · rw [all]
      exact tour.indexes workspace.settings (scanStart tree root)
    · rw [rebuild_tables, foldl_takeIn_tables, addRoot_tables, updateFiles_tables, all,
        changes_flatMap_visits]

namespace BrokenLink

/-- A directory with a file and with a link that leads to itself. -/
def tree : FileTree where
  current := []
  nodes := ⟨[
    ([['r']], .directory),
    ([['r'], "a.tdl".toList], .file [0x41, 0x2E, 0x62]),
    ([['r'], "b.tdl".toList], .link "b.tdl".toList)]⟩

def root : Path := ⟨.root, [['r']]⟩

def stops : List Stop :=
  [.entered root [['r']], .entry (root.child "a.tdl".toList), .entry (root.child "b.tdl".toList)]

theorem tour : Tour tree [root] [] stops := by
  have names : tree.list [['r']] = .ok ["a.tdl".toList, "b.tdl".toList] :=
    FileTree.list_of_sorted (by decide) (by decide +kernel) (by decide)
  apply Tour.entered (by decide +kernel) (by simp) names
  apply Tour.entry (by decide +kernel)
  apply Tour.entry (by decide +kernel)
  exact .done _

def report : ScanReport where
  root := root
  indexed := ["file:///r/a.tdl".toList]
  failures := [⟨root.child "b.tdl".toList, FileError.tooManyLinks.at "/r/b.tdl".toList⟩]

/-- A run after which another file gives an attribute to the same object. -/
def earlier : List Operation := [.update ['u'] ['A', '.', 'x']]

theorem scan_result : (((empty .standard).run earlier).scan tree root).result = .ok report := by
  have found : tree.directory? root.toText = .ok (some [['r']]) := by decide +kernel
  have settings : ((empty .standard).run earlier).settings = .standard := run_settings ..
  have quiet : (visitStops ((empty .standard).run earlier).settings tree stops).2 = none := by
    rw [settings]
    decide +kernel
  calc (((empty .standard).run earlier).scan tree root).result
      = .ok ⟨root, (stops.filterMap (Stop.file? .standard tree)).map ScannedFile.uri,
          stops.filterMap (Stop.failure? .standard tree)⟩ :=
        settings ▸ scan_result_of_quiet found tour quiet
    _ = .ok report := by decide +kernel

end BrokenLink

/-- After any run, a scan that returns a report leaves the tables that the updates of its files
leave. So it does for the union of attributes, if that was not behind or there is a file. These
conditions are needed: the scan of a directory forms the union, and no updates leave it behind. -/
theorem scan_refines_updates (settings : Settings) (operations : List Operation)
    (tree : FileTree) (root : Path) {report : ScanReport}
    (returned : (((empty settings).run operations).scan tree root).result = .ok report) :
    let workspace := (empty settings).run operations
    let scanned := (workspace.scan tree root).state
    ∃ files, report.Indexes tree files ∧
      scanned.tables = (workspace.updateFiles files).tables ∧
      ((empty settings).Completed operations → UnionCurrent settings operations) ∧
      (UnionCurrent settings operations → workspace.IsUnited) ∧
      (workspace.IsUnited ∨ report.indexed ≠ [] →
        scanned =
          { workspace.updateFiles files with
            roots := (workspace.addRoot (scanStart tree root)).roots }) ∧
      ∀ home, tree.directory? (scanStart tree root).toText = .ok (some home) →
        scanned.IsUnited ∧
          (scanned.attributes = (workspace.updateFiles files).attributes →
            workspace.IsUnited ∨ report.indexed ≠ []) := by
  intro workspace scanned
  obtain ⟨files, indexes, tables, formed⟩ := exists_files_of_scan returned
  refine ⟨files, indexes, tables, unionCurrent_of_completed, run_isUnited, ?_, ?_⟩
  · intro current
    have updated : (workspace.updateFiles files).IsUnited := by
      apply updateFiles_isUnited
      rcases current with united | some
      · exact .inl united
      · right
        rintro rfl
        exact some indexes.indexed
    have merged : scanned.attributes.merged = (workspace.updateFiles files).attributes.merged := by
      rcases formed with united | ⟨rfl, -, kept⟩
      · exact merged_eq_of_isUnited united updated tables
      · exact congrArg AttributeIndex.merged kept
    apply eq_of_tables
    · exact (scan_settings workspace tree root).trans (updateFiles_settings workspace files).symm
    · exact tables
    · exact merged
    · exact scan_roots workspace tree root
  · intro home found
    have united : scanned.IsUnited := by
      rcases formed with united | ⟨-, absent, -⟩
      · exact united
      · simp [found] at absent
    refine ⟨united, ?_⟩
    intro same
    by_cases vacant : report.indexed = []
    · left
      have none : files = [] := List.map_eq_nil_iff.mp (indexes.indexed.symm.trans vacant)
      rw [none] at same
      unfold IsUnited at united ⊢
      rwa [same] at united
    · exact .inr vacant

theorem scan_refines_updates_brokenLink :
    let workspace := (empty .standard).run BrokenLink.earlier
    (workspace.scan BrokenLink.tree BrokenLink.root).result = .ok BrokenLink.report ∧
      ∃ files, BrokenLink.report.Indexes BrokenLink.tree files ∧
        (workspace.scan BrokenLink.tree BrokenLink.root).state =
          { workspace.updateFiles files with roots := [BrokenLink.root] } := by
  intro workspace
  refine ⟨BrokenLink.scan_result, ?_⟩
  obtain ⟨files, indexes, -, -, united, whole, -⟩ := scan_refines_updates .standard
    BrokenLink.earlier BrokenLink.tree BrokenLink.root BrokenLink.scan_result
  exact ⟨files, indexes, whole (.inl (united rfl))⟩

/-- After the scan that ends at a file without a URI, the scan of an empty directory indexes
nothing, and yet it gives an object the attribute that the union of attributes was lacking. -/
theorem scan_differs_namelessFile :
    let workspace := (empty .standard).run [.scan NamelessFile.tree NamelessFile.root]
    let scanned := workspace.scan NamelessFile.tree NamelessFile.home
    scanned.result = .ok ⟨NamelessFile.home, [], []⟩ ∧
      scanned.state.attributes.attributesFor ['A'] = [['x']] ∧
      (workspace.updateFiles []).attributes.attributesFor ['A'] = [] := by
  intro workspace scanned
  have arrived : workspace = _ := NamelessFile.run_eq
  have formed : scanned.state = (workspace.addRoot NamelessFile.home).rebuild ∧
      scanned.result = .ok ⟨NamelessFile.home, [], []⟩ := by
    obtain ⟨error, checked, -⟩ | ⟨checked, -⟩ | ⟨place, visits, fault, -, gone, -⟩ |
      ⟨place, visits, -, gone, ended⟩ := scan_cases workspace NamelessFile.tree NamelessFile.home
    · simp [NamelessFile.home_found] at checked
    · simp [NamelessFile.home_found] at checked
    · have cut := (Prod.mk.inj (gone.symm.trans (NamelessFile.traverse_home _))).2
      simp at cut
    · obtain ⟨rfl, -⟩ := Prod.mk.inj (gone.symm.trans (NamelessFile.traverse_home _))
      exact ⟨congrArg Reply.state ended, congrArg Reply.result ended⟩
  refine ⟨formed.2, ?_, ?_⟩
  · rw [formed.1, arrived]
    decide +kernel
  · rw [arrived]
    decide +kernel

end Workspace

end GrammarLens
