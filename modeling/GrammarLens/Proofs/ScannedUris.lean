import GrammarLens.Proofs.FileUris
import GrammarLens.Proofs.Reindexing

/-!
Contract: what the registered roots make of URIs, and of those that a scan has indexed.

Owns:
- which URIs resolve, and to what: those of paths that continue a root part by part, to the URI of
  that path, whichever root it is;
- roots stay registered;
- files that a scan indexes lie below its start, and their URIs resolve to themselves from then on,
  unless their paths name a drive;
- definitions that a scan records are found where it recorded them.

Does not own: which files a scan indexes.
-/

namespace GrammarLens

namespace Workspace

/-! ## Resolving -/

/-- A URI stands for a path that continues a registered root. -/
structure Locates (workspace : Workspace) (uri : Text) (path : Path) : Prop where
  stands : ∃ written, Uri.filePath? uri = .ok (some written) ∧ path = Path.ofText written
  below : ∃ root ∈ workspace.roots, path.Continues root

section Resolving

variable {workspace : Workspace} {uri : Text}

theorem resolveInRoots_of_locates {path : Path} (locates : workspace.Locates uri path) :
    workspace.resolveInRoots uri = (Uri.ofFilePath path.toText).map some := by
  obtain ⟨written, stands, rfl⟩ := locates.stands
  obtain ⟨root, member, continues⟩ := locates.below
  rw [resolveInRoots, stands]
  exact resolveBelow_of_continues member continues

theorem resolveInRoots_of_not_locates {found : Option Text} (parted : Uri.filePath? uri = .ok found)
    (outside : ∀ path, ¬ workspace.Locates uri path) :
    workspace.resolveInRoots uri = .ok none := by
  rw [resolveInRoots, parted]
  cases found with
  | none => rfl
  | some written =>
      apply resolveBelow_of_outside
      intro root member continues
      exact outside _ ⟨⟨written, parted, rfl⟩, root, member, continues⟩

private theorem resolveInRoots_eq_some_iff {result : Text} :
    workspace.resolveInRoots uri = .ok (some result) ↔
      ∃ path, workspace.Locates uri path ∧ Uri.ofFilePath path.toText = .ok result := by
  constructor
  · intro resolved
    by_cases located : ∃ path, workspace.Locates uri path
    · obtain ⟨path, locates⟩ := located
      rw [resolveInRoots_of_locates locates] at resolved
      refine ⟨path, locates, ?_⟩
      cases written : Uri.ofFilePath path.toText with
      | error error => simp [written, Except.map] at resolved
      | ok other =>
          simp only [written, Except.map, Except.ok.injEq, Option.some.injEq] at resolved
          rw [resolved]
    · cases parted : Uri.filePath? uri with
      | error error => simp [resolveInRoots, parted, bind, Except.bind] at resolved
      | ok found =>
          rw [resolveInRoots_of_not_locates parted fun path locates => located ⟨path, locates⟩]
            at resolved
          simp at resolved
  · intro located
    obtain ⟨path, locates, written⟩ := located
    rw [resolveInRoots_of_locates locates, written]
    rfl

private theorem resolveInRoots_eq_none_iff :
    workspace.resolveInRoots uri = .ok none ↔
      (∃ found, Uri.filePath? uri = .ok found) ∧ ∀ path, ¬ workspace.Locates uri path := by
  constructor
  · intro unresolved
    refine ⟨?_, ?_⟩
    · cases parted : Uri.filePath? uri with
      | error error => simp [resolveInRoots, parted, bind, Except.bind] at unresolved
      | ok found => exact ⟨found, rfl⟩
    · intro path locates
      rw [resolveInRoots_of_locates locates] at unresolved
      cases written : Uri.ofFilePath path.toText with
      | error error => simp [written, Except.map] at unresolved
      | ok other => simp [written, Except.map] at unresolved
  · intro outside
    obtain ⟨found, parted⟩ := outside.1
    exact resolveInRoots_of_not_locates parted outside.2

end Resolving

/-! ## Roots that stay -/

private theorem mem_step_roots {workspace : Workspace} {root : Path}
    (known : root ∈ workspace.roots)
    (operation : Operation) : root ∈ (workspace.step operation).roots := by
  have added (other : Path) : root ∈ (workspace.addRoot other).roots := by
    unfold addRoot
    split
    · exact known
    · exact List.mem_append_left _ known
  cases operation with
  | update uri text =>
      show root ∈ (workspace.register uri text).roots
      rw [register_roots]
      exact known
  | remove uri => exact known
  | indexTags text uri => exact known
  | refresh uri text offset =>
      rw [step, refresh]
      split
      · exact known
      · exact known
      · show root ∈ (workspace.register uri text).roots
        rw [register_roots]
        exact known
  | addRoot other => exact added other
  | scan tree other =>
      rw [step, scan_roots]
      exact added _

private theorem mem_run_roots {workspace : Workspace} {root : Path} (known : root ∈ workspace.roots)
    (operations : List Operation) : root ∈ (workspace.run operations).roots := by
  induction operations generalizing workspace with
  | nil => exact known
  | cons operation rest inductionHypothesis =>
      exact inductionHypothesis (mem_step_roots known operation)

end Workspace

/-! ## Paths of indexed files -/

/-- A tree in which no name is a dot. -/
def FileTree.IsDotless (tree : FileTree) : Prop :=
  ∀ place ∈ tree.current :: tree.nodes.keys, ['.'] ∉ place

instance (tree : FileTree) : Decidable tree.IsDotless :=
  inferInstanceAs (Decidable (∀ place ∈ _, ['.'] ∉ place))

section Names

variable {tree : FileTree} (named : tree.IsNamed) (dotless : tree.IsDotless)

include named dotless

private theorem isNormal_scanStart (text : Text) :
    (Workspace.scanStart tree (Path.ofText text)).IsNormal where
  toIsRooted := isRooted_scanStart named text
  undotted := by
    have read : ['.'] ∉ (Path.ofText text).parts := by
      intro member
      simpa [Path.isPart] using (List.mem_filter.mp member).2
    rw [Workspace.scanStart, Path.absoluteFrom]
    split
    · intro member
      rcases List.mem_append.mp member with old | new
      · exact dotless _ List.mem_cons_self old
      · exact read new
    · exact read

/-- All paths that a traversal takes up are in normal form if those are with which it starts. -/
theorem Tour.isNormal {pending : List Path} {visited : List Location} {stops : List Stop}
    (tour : Tour tree pending visited stops) (normal : ∀ path ∈ pending, path.IsNormal) :
    ∀ path ∈ stops.map Stop.path, path.IsNormal := by
  apply tour.forall_taken normal
  intro path place name inside _ child
  have present := FileTree.mem_children.mp child
  refine ⟨inside.toIsRooted.child (isEntryName_of_mem_keys named present), ?_⟩
  intro member
  rcases List.mem_append.mp member with old | new
  · exact inside.undotted old
  · apply dotless _ (List.mem_cons_of_mem _ present)
    rw [List.mem_singleton.mp new]
    exact List.mem_append_right _ List.mem_cons_self

end Names

namespace Workspace

section Scans

variable {workspace : Workspace} {tree : FileTree} {root : Path} {report : ScanReport}

/-- Every URI that a report lists was written for a path that the traversal took up. -/
theorem exists_path_of_indexed (returned : (workspace.scan tree root).result = .ok report)
    {uri : Text} (indexed : uri ∈ report.indexed) :
    ∃ stops path, Tour tree [scanStart tree root] [] stops ∧ path ∈ stops.map Stop.path ∧
      Uri.ofFilePath path.toText = .ok uri := by
  obtain ⟨error, -, ended⟩ | ⟨checked, ended⟩ | ⟨place, visits, fault, -, -, ended⟩ |
    ⟨place, visits, -, gone, ended⟩ := scan_cases workspace tree root
  · simp [ended] at returned
  · rw [ended] at returned
    obtain rfl := Except.ok.inj returned
    simp at indexed
  · simp [ended] at returned
  · obtain ⟨stops, tour, rfl⟩ := exists_tour_of_traverse gone
    rw [ended] at returned
    obtain rfl := Except.ok.inj returned
    rw [reportOf_flatMap_visits] at indexed
    obtain ⟨file, member, rfl⟩ := List.mem_map.mp indexed
    obtain ⟨stop, present, met⟩ := List.mem_filterMap.mp member
    obtain ⟨rfl, -, written⟩ := Stop.file?_eq_some met
    exact ⟨stops, file.path, tour, List.mem_map_of_mem present, written⟩

/-- The start of a scan stays registered. -/
theorem scanStart_mem_run_roots (operations : List Operation) :
    scanStart tree root ∈ ((workspace.scan tree root).state.run operations).roots := by
  apply mem_run_roots
  rw [scan_roots]
  exact mem_addRoot_roots ..

/-- Where a record of a definition comes from. -/
theorem lookup?_foldl_addRecord_cases {index : DefinitionIndex} {records : List DefinitionRecord}
    {name : Text} {site : DefinitionSite}
    (found : (records.foldl DefinitionIndex.addRecord index).lookup? name = some site) :
    (∃ entry ∈ records, site = siteOf entry) ∨ index.lookup? name = some site := by
  induction records generalizing index with
  | nil => exact .inr found
  | cons entry rest inductionHypothesis =>
      rcases inductionHypothesis found with later | before
      · obtain ⟨other, member, same⟩ := later
        exact .inl ⟨other, List.mem_cons_of_mem _ member, same⟩
      · simp only [DefinitionIndex.lookup?, DefinitionIndex.addRecord, DefinitionIndex.add,
          Table.find?_put] at before
        split at before
        · exact .inl ⟨entry, List.mem_cons_self, (Option.some.inj before).symm⟩
        · exact .inr before

/-- What a scan records stands in a file that it lists. -/
theorem uri_mem_indexed_of_lookup? (returned : (workspace.scan tree root).result = .ok report)
    {name : Text} {site : DefinitionSite}
    (found : (workspace.scan tree root).state.definitions.lookup? name = some site) :
    site.uri ∈ report.indexed ∨ workspace.definitions.lookup? name = some site := by
  obtain ⟨files, indexes, tables, -⟩ := exists_files_of_scan returned
  have recorded : (workspace.scan tree root).state.definitions =
      (recordsOf (files.flatMap ScannedFile.changes)).foldl DefinitionIndex.addRecord
        workspace.definitions := by
    have same : (workspace.scan tree root).state.tables.definitions = _ :=
      congrArg Tables.definitions (tables.trans (updateFiles_tables workspace files))
    rw [Tables.definitions_afterAll] at same
    exact same
  rw [recorded] at found
  rcases lookup?_foldl_addRecord_cases found with new | old
  · left
    obtain ⟨entry, member, rfl⟩ := new
    obtain ⟨change, made, extracted⟩ := List.mem_flatMap.mp member
    obtain ⟨file, scanned, kind⟩ := List.mem_flatMap.mp made
    rw [indexes.indexed]
    refine List.mem_map.mpr ⟨file, scanned, ?_⟩
    simp only [ScannedFile.changes, Change.ofText, List.mem_cons, List.not_mem_nil, or_false]
      at kind
    cases kind with
    | inl indexing =>
        rw [indexing] at extracted
        obtain ⟨place, -, rfl⟩ := List.mem_map.mp extracted
        rfl
    | inr tagging =>
        rw [tagging] at extracted
        exact absurd extracted List.not_mem_nil
  · exact .inr old

/-- A definition in a file whose URI resolves to itself is gone to where it was recorded. -/
theorem definition_of_resolves {text : Text} {line character : Int} {word : Word}
    {site : DefinitionSite}
    (located : workspace.wordAt text (text.offsetAt line character) = .ok (some word))
    (recorded : workspace.definitions.lookup? word.text = some site)
    (resolved : workspace.resolveInRoots site.uri = .ok (some site.uri)) :
    workspace.definition text line character = ⟨workspace, [], .ok (some site)⟩ := by
  have same : site.relocate (some site.uri) = site := by
    unfold DefinitionSite.relocate
    split
    · next c rest kept =>
      rw [← Option.some.inj kept]
    · rfl
  unfold definition
  simp only [located, recorded, resolved, same]

end Scans

/-- A URI resolves exactly if it stands for a path that continues a registered root part by part,
and then to the URI of that path, whichever root it is. What a scan records stands in the files
that it lists. Each of their URIs was written for a path below the start of the scan and stands for
that path again, unless the path names a drive. Then the URI resolves to itself, whatever is done
after the scan, and no definition in the file is lost. -/
theorem resolveInRoots_scanned (workspace : Workspace) :
    (∀ uri result, workspace.resolveInRoots uri = .ok (some result) ↔
      ∃ path, workspace.Locates uri path ∧ Uri.ofFilePath path.toText = .ok result) ∧
    (∀ uri, workspace.resolveInRoots uri = .ok none ↔
      (∃ found, Uri.filePath? uri = .ok found) ∧ ∀ path, ¬ workspace.Locates uri path) ∧
    ∀ (tree : FileTree) (start : Text) (report : ScanReport), tree.IsNamed → tree.IsDotless →
      let scan := workspace.scan tree (Path.ofText start)
      scan.result = .ok report →
      (∀ name site, scan.state.definitions.lookup? name = some site →
        site.uri ∈ report.indexed ∨ workspace.definitions.lookup? name = some site) ∧
      ∀ uri ∈ report.indexed, ∃ path : Path,
        path.Continues (scanStart tree (Path.ofText start)) ∧
        Uri.ofFilePath path.toText = .ok uri ∧
        (Uri.filePath? uri = .ok (some path.toText) ↔ ¬ path.NamesDrive) ∧
        (¬ path.NamesDrive → ∀ operations,
          let later := scan.state.run operations
          later.resolveInRoots uri = .ok (some uri) ∧
          ∀ text line character word site,
            later.wordAt text (text.offsetAt line character) = .ok (some word) →
            later.definitions.lookup? word.text = some site → site.uri = uri →
            later.definition text line character = ⟨later, [], .ok (some site)⟩) := by
  refine ⟨fun uri result => resolveInRoots_eq_some_iff, fun uri => resolveInRoots_eq_none_iff, ?_⟩
  intro tree start report named dotless scan returned
  refine ⟨fun name site found => uri_mem_indexed_of_lookup? returned found, ?_⟩
  intro uri indexed
  obtain ⟨stops, path, tour, taken, written⟩ := exists_path_of_indexed returned indexed
  have below : path.Continues (scanStart tree (Path.ofText start)) :=
    tour.continues (fun other pending => List.mem_singleton.mp pending ▸ .refl _) path taken
  have normal : path.IsNormal :=
    tour.isNormal named dotless
      (fun other pending => List.mem_singleton.mp pending ▸ isNormal_scanStart named dotless start)
      path taken
  have returns := Uri.filePath?_ofFilePath normal.toIsRooted written
  refine ⟨path, below, written, returns, ?_⟩
  intro driveless operations later
  have locates : later.Locates uri path :=
    ⟨⟨path.toText, returns.mpr driveless, (Path.ofText_toText normal).symm⟩,
      _, scanStart_mem_run_roots operations, below⟩
  have resolved : later.resolveInRoots uri = .ok (some uri) :=
    resolveInRoots_eq_some_iff.mpr ⟨path, locates, written⟩
  refine ⟨resolved, ?_⟩
  intro text line character word site located recorded same
  apply definition_of_resolves located recorded
  rw [same]
  exact resolved

namespace SiblingRoots

/-- Two directories of which one is named like the other and more. The second holds a file whose
name has to be escaped. -/
def tree : FileTree where
  current := []
  nodes := ⟨[
    ([['w']], .directory),
    ([['w'], "sub".toList], .directory),
    ([['w'], "sub2".toList], .directory),
    ([['w'], "sub2".toList, "ä b.tdl".toList], .file [0x41, 0x20, 0x3A, 0x3D, 0x20, 0x62])]⟩

def place : Location := [['w'], "sub2".toList]

def root : Path := ⟨.root, place⟩

/-- The first directory is registered before. -/
def earlier : Workspace := (empty .standard).run [.addRoot ⟨.root, [['w'], "sub".toList]⟩]

/-- The second directory, not in normal form. -/
def start : Text := "/w/.//sub2/".toList

def stops : List Stop := [.entered root place, .entry (root.child "ä b.tdl".toList)]

def uri : Text := "file:///w/sub2/%C3%A4%20b.tdl".toList

def report : ScanReport := ⟨root, [uri], []⟩

def site : DefinitionSite := ⟨uri, ⟨0, 0, 0, 1⟩⟩

theorem tour : Tour tree [root] [] stops := by
  have names : tree.list place = .ok ["ä b.tdl".toList] :=
    FileTree.list_of_sorted (by decide) (by decide +kernel) (by decide)
  apply Tour.entered (by decide +kernel) (by simp) names
  exact .entry (by decide +kernel) (.done _)

theorem settings : earlier.settings = .standard := run_settings ..

theorem ofText_start : Path.ofText start = root := by decide +kernel

theorem found : tree.directory? root.toText = .ok (some place) := by decide +kernel

theorem scan_result : (earlier.scan tree (Path.ofText start)).result = .ok report := by
  have quiet : (visitStops earlier.settings tree stops).2 = none := by
    rw [settings]
    decide +kernel
  rw [ofText_start]
  calc (earlier.scan tree root).result
      = .ok ⟨root, (stops.filterMap (Stop.file? .standard tree)).map ScannedFile.uri,
          stops.filterMap (Stop.failure? .standard tree)⟩ :=
        settings ▸ scan_result_of_quiet found tour quiet
    _ = .ok report := by decide +kernel

/-- After the scan the root of the file system is registered. -/
def later : Workspace := (earlier.scan tree (Path.ofText start)).state.run [.addRoot ⟨.root, []⟩]

private theorem later_definition : later.definitions.lookup? ['A'] = some site := by
  have outcome : scanOutcome earlier.settings tree root = visitStops .standard tree stops := by
    have start : scanStart tree root = root := rfl
    rw [scanOutcome, start, found, settings]
    exact tour.traverse_eq .standard
  have tables : later.tables =
      earlier.tables.afterAll ((visitStops .standard tree stops).1.flatMap Visit.changes) := by
    rw [← outcome, ← scan_tables, ← ofText_start]
    exact addRoot_tables ..
  show later.tables.definitions.lookup? ['A'] = some site
  rw [tables]
  decide +kernel

private theorem later_wordAt :
    later.wordAt "A".toList (Text.offsetAt "A".toList 0 0) = .ok (some ⟨['A'], 0, 1⟩) := by
  have known : later.settings = .standard :=
    (run_settings ..).trans ((scan_settings ..).trans settings)
  rw [wordAt, known]
  decide +kernel

end SiblingRoots

theorem resolveInRoots_scanned_siblingRoots :
    SiblingRoots.tree.IsNamed ∧ SiblingRoots.tree.IsDotless ∧
      (SiblingRoots.earlier.scan SiblingRoots.tree (Path.ofText SiblingRoots.start)).result =
        .ok SiblingRoots.report ∧
      SiblingRoots.later.resolveInRoots SiblingRoots.uri = .ok (some SiblingRoots.uri) ∧
      SiblingRoots.later.definition "A".toList 0 0 =
        ⟨SiblingRoots.later, [], .ok (some SiblingRoots.site)⟩ := by
  have named : SiblingRoots.tree.IsNamed := by decide +kernel
  have dotless : SiblingRoots.tree.IsDotless := by decide +kernel
  obtain ⟨path, below, written, returns, kept⟩ :=
    ((resolveInRoots_scanned SiblingRoots.earlier).2.2 SiblingRoots.tree SiblingRoots.start
      SiblingRoots.report named dotless SiblingRoots.scan_result).2 SiblingRoots.uri (by decide)
  have start : scanStart SiblingRoots.tree (Path.ofText SiblingRoots.start) =
      SiblingRoots.root := by
    rw [SiblingRoots.ofText_start]
    rfl
  have driveless : ¬ path.NamesDrive := by
    rw [start] at below
    obtain ⟨parts, rfl⟩ := below
    simp [Path.NamesDrive, Path.extend, SiblingRoots.root, SiblingRoots.place]
  obtain ⟨resolved, goes⟩ := kept driveless [.addRoot ⟨.root, []⟩]
  exact ⟨named, dotless, SiblingRoots.scan_result, resolved,
    goes "A".toList 0 0 ⟨['A'], 0, 1⟩ SiblingRoots.site SiblingRoots.later_wordAt
      SiblingRoots.later_definition rfl⟩

end Workspace

end GrammarLens
