import GrammarLens.Proofs.TableOrder
import GrammarLens.Workspace.Run
import Mathlib.Data.List.Induction
import Mathlib.Data.List.Infix

/-!
Contract: a run of operations as the list of changes that it amounts to.

Owns:
- changes: a text indexed under a file, a file removed, the tags of a text taken in;
- the changes of an operation, and the history of a run. A scan contributes the files it
  read, in order, also when a fault cuts it short;
- the tables of a workspace without the union of attributes, and the proof that a run
  leaves them as its history says;
- the reports of a run;
- runs in which every operation gives an answer, and runs after which the union of
  attributes is not behind the file maps;
- the settled part of a run, to which the union of attributes belongs where it is behind.

Does not own: what single tables hold after a history.
-/

namespace GrammarLens

/-- Something that happens to the tables of a workspace. -/
inductive Change where
  /-- A text is indexed under a file, for its attributes and definitions. -/
  | indexed (uri text : Text)
  /-- A file is removed. -/
  | removed (uri : Text)
  /-- The tags of a text are taken in. -/
  | tagged (text : Text) (uri : Option Text)
deriving DecidableEq, Repr

/-- The changes of indexing a text together with its tags. -/
def Change.ofText (uri text : Text) : List Change := [.indexed uri text, .tagged text (some uri)]

/-- The changes of a visit: an entry that could not be read contributes none. -/
def Visit.changes : Visit → List Change
  | .indexed uri text => Change.ofText uri text
  | .failed _ => []

/-! ## Single records -/

def DefinitionIndex.addRecord (index : DefinitionIndex) (entry : DefinitionRecord) :
    DefinitionIndex :=
  index.add entry.name (Workspace.siteOf entry)

/-- Records the documentation of a definition, if it has one. -/
def DocumentationIndex.addRecord (index : DocumentationIndex) (entry : DefinitionRecord) :
    DocumentationIndex :=
  match entry.doc with
  | some doc => index.add entry.name doc
  | none => index

/-! ## Tables and what changes do to them -/

/-- The tables of a workspace, all but the union of attributes. -/
structure Tables where
  files : Table Text AttributeMap
  definitions : DefinitionIndex
  documentation : DocumentationIndex
  tags : TagIndex

namespace Tables

def after (tables : Tables) : Change → Tables
  | .indexed uri text =>
    { tables with
      files := tables.files.put uri (extractAttributes text)
      definitions :=
        (extractDefinitions text uri).foldl DefinitionIndex.addRecord tables.definitions
      documentation :=
        (extractDefinitions text uri).foldl DocumentationIndex.addRecord tables.documentation }
  | .removed uri => { tables with files := tables.files.erase uri }
  | .tagged text uri => { tables with tags := tables.tags.addAll (extractTags text) uri }

def afterAll (tables : Tables) (changes : List Change) : Tables := changes.foldl after tables

@[simp]
theorem afterAll_cons (tables : Tables) (change : Change) (changes : List Change) :
    tables.afterAll (change :: changes) = (tables.after change).afterAll changes := rfl

@[simp]
theorem afterAll_append (tables : Tables) (first second : List Change) :
    tables.afterAll (first ++ second) = (tables.afterAll first).afterAll second :=
  List.foldl_append

end Tables

namespace Workspace

def tables (workspace : Workspace) : Tables where
  files := workspace.attributes.files
  definitions := workspace.definitions
  documentation := workspace.documentation
  tags := workspace.tags

/-- Whether the union of attributes is the one of the file maps. -/
def IsUnited (workspace : Workspace) : Prop :=
  workspace.attributes.merged = AttributeIndex.unionOf workspace.attributes.files.values

/-- A workspace is its settings, its tables, the union of attributes and its roots. -/
theorem eq_of_tables {left right : Workspace} (settings : left.settings = right.settings)
    (tables : left.tables = right.tables)
    (merged : left.attributes.merged = right.attributes.merged)
    (roots : left.roots = right.roots) : left = right := by
  obtain ⟨leftSettings, ⟨leftFiles, leftMerged⟩, _, _, _, leftRoots⟩ := left
  obtain ⟨rightSettings, ⟨rightFiles, rightMerged⟩, _, _, _, rightRoots⟩ := right
  simp only [Workspace.tables, Tables.mk.injEq] at tables
  obtain ⟨rfl, rfl, rfl, rfl⟩ := tables
  subst settings merged roots
  rfl

theorem merged_eq_of_isUnited {left right : Workspace} (leftUnited : left.IsUnited)
    (rightUnited : right.IsUnited) (same : left.tables = right.tables) :
    left.attributes.merged = right.attributes.merged := by
  have files : left.attributes.files = right.attributes.files := congrArg Tables.files same
  rw [leftUnited, rightUnited, files]

/-! ## What single changes do -/

/-- Recording definitions changes two tables and nothing else. -/
theorem foldl_record (entries : List DefinitionRecord) (workspace : Workspace) :
    entries.foldl record workspace =
      { workspace with
        definitions := entries.foldl DefinitionIndex.addRecord workspace.definitions
        documentation := entries.foldl DocumentationIndex.addRecord workspace.documentation } := by
  induction entries generalizing workspace with
  | nil => rfl
  | cons entry rest inductionHypothesis =>
      rw [List.foldl_cons, inductionHypothesis]
      rfl

section Changes

variable (workspace : Workspace) (uri text : Text)

theorem register_eq :
    workspace.register uri text =
      { workspace with
        attributes := workspace.attributes.register uri (extractAttributes text)
        definitions :=
          (extractDefinitions text uri).foldl DefinitionIndex.addRecord workspace.definitions
        documentation :=
          (extractDefinitions text uri).foldl DocumentationIndex.addRecord
            workspace.documentation } :=
  foldl_record _ _

@[simp]
theorem register_settings : (workspace.register uri text).settings = workspace.settings := by
  rw [register_eq]

@[simp]
theorem register_roots : (workspace.register uri text).roots = workspace.roots := by
  rw [register_eq]

@[simp]
theorem register_tables :
    (workspace.register uri text).tables = workspace.tables.after (.indexed uri text) := by
  rw [register_eq]
  rfl

@[simp]
theorem rebuild_tables : workspace.rebuild.tables = workspace.tables := rfl

theorem rebuild_isUnited : workspace.rebuild.IsUnited := rfl

@[simp]
theorem update_tables :
    (workspace.update uri text).tables = workspace.tables.after (.indexed uri text) := by
  rw [update, rebuild_tables, register_tables]

@[simp]
theorem remove_tables :
    (workspace.remove uri).tables = workspace.tables.after (.removed uri) := rfl

@[simp]
theorem indexTags_tables (source : Option Text) :
    (workspace.indexTags text source).tables = workspace.tables.after (.tagged text source) := rfl

@[simp]
theorem updateWithTags_tables :
    (workspace.updateWithTags uri text).tables =
      workspace.tables.afterAll (Change.ofText uri text) := by
  rw [updateWithTags, indexTags_tables, update_tables]
  rfl

theorem addRoot_eq (root : Path) :
    workspace.addRoot root = { workspace with roots := (workspace.addRoot root).roots } := by
  unfold addRoot
  split <;> rfl

@[simp]
theorem addRoot_tables (root : Path) : (workspace.addRoot root).tables = workspace.tables := by
  rw [addRoot_eq]
  rfl

@[simp]
theorem addRoot_settings (root : Path) :
    (workspace.addRoot root).settings = workspace.settings := by
  rw [addRoot_eq]

end Changes

/-! ## Scans -/

/-- The path that the scan of a root starts at. -/
def scanStart (tree : FileTree) (root : Path) : Path :=
  Path.absoluteFrom ⟨.root, tree.current⟩ root

/-- The visits of a scan, and the fault that cut it short. A root that is not a directory is
not gone through at all. -/
def scanOutcome (settings : Settings) (tree : FileTree) (root : Path) :
    List Visit × Option Fault :=
  match tree.directory? (scanStart tree root).toText with
  | .ok (some _) => traverse settings tree [scanStart tree root] []
  | _ => ([], none)

/-- Every way in which a scan ends: the root cannot be checked, it is not a directory, a fault
cuts the scan short, or the scan comes to its end. -/
theorem scan_cases (workspace : Workspace) (tree : FileTree) (root : Path) :
    let rooted := workspace.addRoot (scanStart tree root)
    (∃ error, tree.directory? (scanStart tree root).toText = .error error ∧
      workspace.scan tree root =
        ⟨rooted, [], .error (.unreadable (error.at (scanStart tree root).toText))⟩) ∨
    (tree.directory? (scanStart tree root).toText = .ok none ∧
      workspace.scan tree root =
        ⟨rooted, [.rootNotADirectory (scanStart tree root)],
          .ok ⟨scanStart tree root, [], []⟩⟩) ∨
    (∃ place visits fault,
      tree.directory? (scanStart tree root).toText = .ok (some place) ∧
      traverse workspace.settings tree [scanStart tree root] [] = (visits, some fault) ∧
      workspace.scan tree root =
        ⟨visits.foldl takeIn rooted, rooted.visitNotices visits, .error fault⟩) ∨
    (∃ place visits,
      tree.directory? (scanStart tree root).toText = .ok (some place) ∧
      traverse workspace.settings tree [scanStart tree root] [] = (visits, none) ∧
      workspace.scan tree root =
        ⟨(visits.foldl takeIn rooted).rebuild,
          rooted.visitNotices visits ++
            [.scanned (scanStart tree root) (reportOf (scanStart tree root) visits).indexed.length
              (reportOf (scanStart tree root) visits).failures.length],
          .ok (reportOf (scanStart tree root) visits)⟩) := by
  intro rooted
  have start : Path.absoluteFrom ⟨.root, tree.current⟩ root = scanStart tree root := rfl
  simp only [scan, start]
  cases tree.directory? (scanStart tree root).toText with
  | error error => exact .inl ⟨error, rfl, rfl⟩
  | ok found =>
      cases found with
      | none => exact .inr (.inl ⟨rfl, rfl⟩)
      | some place =>
          obtain ⟨visits, fault⟩ := traverse workspace.settings tree [scanStart tree root] []
          cases fault with
          | some fault => exact .inr (.inr (.inl ⟨place, visits, fault, rfl, rfl, rfl⟩))
          | none => exact .inr (.inr (.inr ⟨place, visits, rfl, rfl, rfl⟩))

@[simp]
theorem takeIn_tables (workspace : Workspace) (visit : Visit) :
    (workspace.takeIn visit).tables = workspace.tables.afterAll visit.changes := by
  cases visit with
  | indexed uri text =>
      rw [takeIn, indexTags_tables, register_tables]
      rfl
  | failed failure => rfl

theorem foldl_takeIn_tables (visits : List Visit) (workspace : Workspace) :
    (visits.foldl takeIn workspace).tables =
      workspace.tables.afterAll (visits.flatMap Visit.changes) := by
  induction visits generalizing workspace with
  | nil => rfl
  | cons visit rest inductionHypothesis =>
      rw [List.foldl_cons, inductionHypothesis, takeIn_tables, List.flatMap_cons,
        Tables.afterAll_append]

theorem foldl_takeIn_frame (visits : List Visit) (workspace : Workspace) :
    (visits.foldl takeIn workspace).settings = workspace.settings ∧
      (visits.foldl takeIn workspace).roots = workspace.roots := by
  induction visits generalizing workspace with
  | nil => exact ⟨rfl, rfl⟩
  | cons visit rest inductionHypothesis =>
      rw [List.foldl_cons, (inductionHypothesis _).1, (inductionHypothesis _).2]
      cases visit with
      | indexed uri text => exact ⟨register_settings .., register_roots ..⟩
      | failed failure => exact ⟨rfl, rfl⟩

theorem scan_tables (workspace : Workspace) (tree : FileTree) (root : Path) :
    (workspace.scan tree root).state.tables =
      workspace.tables.afterAll
        ((scanOutcome workspace.settings tree root).1.flatMap Visit.changes) := by
  unfold scanOutcome
  obtain ⟨error, checked, ended⟩ | ⟨checked, ended⟩ | ⟨place, visits, fault, checked, gone, ended⟩ |
    ⟨place, visits, checked, gone, ended⟩ := scan_cases workspace tree root
  · rw [ended, checked, addRoot_tables]
    rfl
  · rw [ended, checked, addRoot_tables]
    rfl
  · rw [ended, checked, foldl_takeIn_tables, addRoot_tables]
    simp only [gone]
  · rw [ended, checked, rebuild_tables, foldl_takeIn_tables, addRoot_tables]
    simp only [gone]

theorem scan_settings (workspace : Workspace) (tree : FileTree) (root : Path) :
    (workspace.scan tree root).state.settings = workspace.settings := by
  obtain ⟨error, _, ended⟩ | ⟨_, ended⟩ | ⟨place, visits, fault, _, _, ended⟩ |
    ⟨place, visits, _, _, ended⟩ := scan_cases workspace tree root
  · rw [ended, addRoot_settings]
  · rw [ended, addRoot_settings]
  · rw [ended, (foldl_takeIn_frame visits _).1, addRoot_settings]
  · rw [ended]
    exact (foldl_takeIn_frame visits _).1.trans (addRoot_settings ..)

/-- Whether a scan comes to the point where the union of attributes is formed. -/
def formsUnion (settings : Settings) (tree : FileTree) (root : Path) : Bool :=
  match tree.directory? (scanStart tree root).toText with
  | .ok (some _) => (scanOutcome settings tree root).2.isNone
  | _ => false

private theorem foldl_takeIn_merged (visits : List Visit) (workspace : Workspace) :
    (visits.foldl takeIn workspace).attributes.merged = workspace.attributes.merged := by
  induction visits generalizing workspace with
  | nil => rfl
  | cons visit rest inductionHypothesis =>
      rw [List.foldl_cons, inductionHypothesis]
      cases visit with
      | indexed uri text =>
          change (workspace.register uri text).attributes.merged = _
          rw [register_eq]
          rfl
      | failed failure => rfl

theorem scan_merged (workspace : Workspace) (tree : FileTree) (root : Path) :
    (workspace.scan tree root).state.attributes.merged =
      if formsUnion workspace.settings tree root then
        AttributeIndex.unionOf (workspace.scan tree root).state.attributes.files.values
      else workspace.attributes.merged := by
  unfold formsUnion scanOutcome
  obtain ⟨error, checked, ended⟩ | ⟨checked, ended⟩ | ⟨place, visits, fault, checked, gone, ended⟩ |
    ⟨place, visits, checked, gone, ended⟩ := scan_cases workspace tree root
  · rw [ended, checked, addRoot_eq]
    rfl
  · rw [ended, checked, addRoot_eq]
    rfl
  · rw [ended, checked]
    simp only [gone]
    rw [foldl_takeIn_merged, addRoot_eq]
    rfl
  · rw [ended, checked]
    simp only [gone]
    rfl

/-! ## Operations and runs -/

/-- The changes that an operation amounts to under given settings. -/
def changesOf (settings : Settings) : Operation → List Change
  | .update uri text => [.indexed uri text]
  | .remove uri => [.removed uri]
  | .indexTags text uri => [.tagged text uri]
  | .refresh uri text offset =>
    match endsStructurally settings text offset with
    | .ok true => Change.ofText uri text
    | _ => []
  | .addRoot _ => []
  | .scan tree root => (scanOutcome settings tree root).1.flatMap Visit.changes

/-- The changes that a run of operations amounts to, in order. -/
def history (settings : Settings) (operations : List Operation) : List Change :=
  operations.flatMap (changesOf settings)

@[simp]
theorem history_cons (settings : Settings) (operation : Operation) (rest : List Operation) :
    history settings (operation :: rest) =
      changesOf settings operation ++ history settings rest :=
  List.flatMap_cons

theorem step_settings (workspace : Workspace) (operation : Operation) :
    (workspace.step operation).settings = workspace.settings := by
  cases operation with
  | update uri text => exact register_settings ..
  | remove uri => rfl
  | indexTags text uri => rfl
  | refresh uri text offset =>
      simp only [step, refresh]
      split
      · rfl
      · rfl
      · exact register_settings ..
  | addRoot root => exact addRoot_settings ..
  | scan tree root => exact scan_settings ..

theorem step_tables (workspace : Workspace) (operation : Operation) :
    (workspace.step operation).tables =
      workspace.tables.afterAll (changesOf workspace.settings operation) := by
  cases operation with
  | update uri text => exact update_tables ..
  | remove uri => exact remove_tables ..
  | indexTags text uri => rfl
  | refresh uri text offset =>
      simp only [step, refresh, changesOf]
      cases endsStructurally workspace.settings text offset with
      | error fault => rfl
      | ok structural =>
          cases structural with
          | false => rfl
          | true => exact updateWithTags_tables ..
  | addRoot root => exact addRoot_tables ..
  | scan tree root => exact scan_tables ..

theorem run_settings (workspace : Workspace) (operations : List Operation) :
    (workspace.run operations).settings = workspace.settings := by
  induction operations generalizing workspace with
  | nil => rfl
  | cons operation rest inductionHypothesis =>
      exact (inductionHypothesis (workspace.step operation)).trans (step_settings ..)

theorem run_tables (workspace : Workspace) (operations : List Operation) :
    (workspace.run operations).tables =
      workspace.tables.afterAll (history workspace.settings operations) := by
  induction operations generalizing workspace with
  | nil => rfl
  | cons operation rest inductionHypothesis =>
      change ((workspace.step operation).run rest).tables = _
      rw [inductionHypothesis, step_settings, step_tables, history_cons, Tables.afterAll_append]

/-! ## The union of attributes -/

/-- Whether the union of attributes is behind the file maps after an operation, where `behind`
tells whether it was before. Nothing but a scan that is cut short after it took in a file leaves
it behind, and every operation that comes to its end with a change of the file maps forms it
anew. -/
def unionBehind (settings : Settings) (behind : Bool) : Operation → Bool
  | .update _ _ | .remove _ => false
  | .indexTags _ _ | .addRoot _ => behind
  | .refresh _ text offset =>
    match endsStructurally settings text offset with
    | .ok true => false
    | _ => behind
  | .scan tree root =>
    !formsUnion settings tree root &&
      (behind || !((scanOutcome settings tree root).1.flatMap Visit.changes).isEmpty)

/-- A run from the empty workspace after which the union of attributes is not behind. -/
def UnionCurrent (settings : Settings) (operations : List Operation) : Prop :=
  operations.foldl (unionBehind settings) false = false

instance (settings : Settings) (operations : List Operation) :
    Decidable (UnionCurrent settings operations) :=
  inferInstanceAs (Decidable (_ = false))

theorem unionCurrent_concat_update (settings : Settings) (operations : List Operation)
    (uri text : Text) : UnionCurrent settings (operations ++ [.update uri text]) := by
  rw [UnionCurrent, List.foldl_append]
  rfl

private theorem step_isUnited {workspace : Workspace} {operation : Operation} {behind : Bool}
    (before : behind = false → workspace.IsUnited)
    (current : unionBehind workspace.settings behind operation = false) :
    (workspace.step operation).IsUnited := by
  cases operation with
  | update uri text => exact rebuild_isUnited _
  | remove uri => rfl
  | indexTags text uri => exact before current
  | refresh uri text offset =>
      simp only [step, refresh]
      simp only [unionBehind] at current
      cases structural : endsStructurally workspace.settings text offset with
      | error fault =>
          rw [structural] at current
          exact before current
      | ok answer =>
          rw [structural] at current
          cases answer with
          | false => exact before current
          | true => exact rebuild_isUnited (workspace.register uri text)
  | addRoot root =>
      have united := before current
      simp only [step]
      rw [addRoot_eq]
      exact united
  | scan tree root =>
      simp only [unionBehind, Bool.and_eq_false_iff, Bool.or_eq_false_iff, Bool.not_eq_false',
        List.isEmpty_iff] at current
      change (workspace.scan tree root).state.attributes.merged = _
      rw [scan_merged]
      rcases current with formed | ⟨united, unchanged⟩
      · rw [if_pos formed]
        rfl
      · have files : (workspace.scan tree root).state.attributes.files =
            workspace.attributes.files := by
          have same := scan_tables workspace tree root
          rw [unchanged] at same
          exact congrArg Tables.files same
        split
        · rfl
        · change _ = AttributeIndex.unionOf
            (workspace.scan tree root).state.attributes.files.values
          rw [files]
          exact before united

private theorem run_isUnited_from (workspace : Workspace) (operations : List Operation)
    (behind : Bool) (before : behind = false → workspace.IsUnited)
    (current : operations.foldl (unionBehind workspace.settings) behind = false) :
    (workspace.run operations).IsUnited := by
  -- The flag runs along with the workspace, so that a later operation can make up for a fault.
  induction operations generalizing workspace behind with
  | nil => exact before current
  | cons operation rest inductionHypothesis =>
      rw [List.foldl_cons, ← step_settings workspace operation] at current
      apply inductionHypothesis (workspace.step operation) _ _ current
      intro formed
      rw [step_settings] at formed
      exact step_isUnited before formed

/-- After a run that leaves the union of attributes current, it is the one of the file maps. -/
theorem run_isUnited {settings : Settings} {operations : List Operation}
    (current : UnionCurrent settings operations) :
    ((empty settings).run operations).IsUnited :=
  run_isUnited_from (empty settings) operations false (fun _ => rfl) current

/-! ## The settled part of a run -/

/-- The longest beginning of a run after which the union of attributes is current. -/
def settledPart (settings : Settings) (operations : List Operation) : List Operation :=
  (operations.inits.reverse.find? fun begun => UnionCurrent settings begun).getD []

section Settled

variable {settings : Settings} {operations : List Operation}

theorem settledPart_concat (settings : Settings) (operations : List Operation)
    (operation : Operation) :
    settledPart settings (operations ++ [operation]) =
      if UnionCurrent settings (operations ++ [operation]) then operations ++ [operation]
      else settledPart settings operations := by
  have inits : (operations ++ [operation]).inits =
      operations.inits ++ [operations ++ [operation]] := by
    simp [List.inits_append]
  unfold settledPart
  rw [inits, List.reverse_append, List.reverse_singleton, List.singleton_append, List.find?_cons]
  by_cases current : UnionCurrent settings (operations ++ [operation])
  · simp [current]
  · simp [current]

theorem settledPart_of_current (current : UnionCurrent settings operations) :
    settledPart settings operations = operations := by
  rcases List.eq_nil_or_concat' operations with rfl | ⟨begun, last, rfl⟩
  · rfl
  · rw [settledPart_concat, if_pos current]

theorem unionCurrent_settledPart (settings : Settings) (operations : List Operation) :
    UnionCurrent settings (settledPart settings operations) := by
  induction operations using List.reverseRecOn with
  | nil => rfl
  | append_singleton operations operation inductionHypothesis =>
      rw [settledPart_concat]
      split
      · assumption
      · exact inductionHypothesis

theorem settledPart_eq_iff :
    settledPart settings operations = operations ↔ UnionCurrent settings operations := by
  constructor
  · intro same
    rw [← same]
    exact unionCurrent_settledPart settings operations
  · exact settledPart_of_current

/-- An operation that leaves the union of attributes behind leaves it as it was. -/
theorem step_merged_of_behind {workspace : Workspace} {operation : Operation} {behind : Bool}
    (left : unionBehind workspace.settings behind operation = true) :
    (workspace.step operation).attributes.merged = workspace.attributes.merged := by
  cases operation with
  | update uri text => simp [unionBehind] at left
  | remove uri => simp [unionBehind] at left
  | indexTags text uri => rfl
  | refresh uri text offset =>
      simp only [unionBehind] at left
      simp only [step, refresh]
      cases structural : endsStructurally workspace.settings text offset with
      | error fault => rfl
      | ok answer =>
          rw [structural] at left
          cases answer with
          | false => rfl
          | true => simp at left
  | addRoot root =>
      simp only [step]
      rw [addRoot_eq]
  | scan tree root =>
      simp only [unionBehind, Bool.and_eq_true, Bool.not_eq_true'] at left
      change (workspace.scan tree root).state.attributes.merged = _
      rw [scan_merged, left.1]
      rfl

/-- Since the settled part of a run the union of attributes has not been formed anew. -/
theorem run_merged (settings : Settings) (operations : List Operation) :
    ((empty settings).run operations).attributes.merged =
      ((empty settings).run (settledPart settings operations)).attributes.merged := by
  induction operations using List.reverseRecOn with
  | nil => rfl
  | append_singleton operations operation inductionHypothesis =>
      rw [settledPart_concat]
      split
      · rfl
      · next later =>
        have behind : unionBehind ((empty settings).run operations).settings
            (operations.foldl (unionBehind settings) false) operation = true := by
          rw [UnionCurrent, List.foldl_append, Bool.not_eq_false] at later
          rwa [run_settings]
        have one : (empty settings).run (operations ++ [operation]) =
            ((empty settings).run operations).step operation := List.foldl_append
        rw [one, step_merged_of_behind behind, inductionHypothesis]

/-- What leaves a current union behind is a scan that a fault cuts short after it took in a
file. -/
theorem interrupted_of_unionBehind {operation : Operation}
    (left : unionBehind settings false operation = true) :
    ∃ tree root, operation = .scan tree root ∧ (scanOutcome settings tree root).2.isSome ∧
      (scanOutcome settings tree root).1.flatMap Visit.changes ≠ [] := by
  cases operation with
  | update uri text => simp [unionBehind] at left
  | remove uri => simp [unionBehind] at left
  | indexTags text uri => simp [unionBehind] at left
  | refresh uri text offset =>
      simp only [unionBehind] at left
      split at left
      · simp at left
      · simp at left
  | addRoot root => simp [unionBehind] at left
  | scan tree root =>
      refine ⟨tree, root, rfl, ?_⟩
      simp only [unionBehind, formsUnion, scanOutcome, Bool.false_or, Bool.and_eq_true,
        Bool.not_eq_true', List.isEmpty_eq_false_iff] at left
      unfold scanOutcome
      split at left
      · exact ⟨by simpa using left.1, left.2⟩
      · simp at left

/-- Where the union of attributes is behind, the settled part of the run ends before a scan that a
fault cut short after it had taken in a file. -/
theorem exists_interrupted_scan (behind : ¬ UnionCurrent settings operations) :
    ∃ tree root later, operations = settledPart settings operations ++ .scan tree root :: later ∧
      (scanOutcome settings tree root).2.isSome ∧
      (scanOutcome settings tree root).1.flatMap Visit.changes ≠ [] := by
  induction operations using List.reverseRecOn with
  | nil => exact absurd rfl behind
  | append_singleton operations operation inductionHypothesis =>
      rw [settledPart_concat, if_neg behind]
      by_cases current : UnionCurrent settings operations
      · unfold UnionCurrent at current behind
        rw [List.foldl_append, current, Bool.not_eq_false] at behind
        obtain ⟨tree, root, rfl, cut⟩ := interrupted_of_unionBehind behind
        exact ⟨tree, root, [], by rw [settledPart_of_current current], cut⟩
      · obtain ⟨tree, root, later, split, cut⟩ := inductionHypothesis current
        refine ⟨tree, root, later ++ [operation], ?_, cut⟩
        conv_lhs => rw [split]
        simp

end Settled

/-! ## Completed runs -/

/-- Whether an operation comes to its end. A scan and a refresh may end with a fault instead. -/
def Completes (workspace : Workspace) : Operation → Prop
  | .refresh uri text offset => ∃ answer, (workspace.refresh uri text offset).result = .ok answer
  | .scan tree root => ∃ report, (workspace.scan tree root).result = .ok report
  | .update _ _ | .remove _ | .indexTags _ _ | .addRoot _ => True

/-- A run in which every operation comes to its end. -/
def Completed (workspace : Workspace) : List Operation → Prop
  | [] => True
  | operation :: rest => workspace.Completes operation ∧ (workspace.step operation).Completed rest

private theorem unionBehind_of_completes {workspace : Workspace} {operation : Operation}
    (completes : workspace.Completes operation) :
    unionBehind workspace.settings false operation = false := by
  cases operation with
  | update uri text => rfl
  | remove uri => rfl
  | indexTags text uri => rfl
  | refresh uri text offset =>
      simp only [unionBehind]
      split <;> rfl
  | addRoot root => rfl
  | scan tree root =>
      obtain ⟨report, answered⟩ := completes
      simp only [unionBehind, formsUnion, scanOutcome]
      obtain ⟨error, checked, ended⟩ | ⟨checked, ended⟩ |
        ⟨place, visits, fault, checked, gone, ended⟩ | ⟨place, visits, checked, gone, ended⟩ :=
        scan_cases workspace tree root
      · simp [checked]
      · simp [checked]
      · simp [ended] at answered
      · simp [checked, gone]

private theorem foldl_unionBehind_of_completed (workspace : Workspace) (operations : List Operation)
    (completed : workspace.Completed operations) :
    operations.foldl (unionBehind workspace.settings) false = false := by
  induction operations generalizing workspace with
  | nil => rfl
  | cons operation rest inductionHypothesis =>
      obtain ⟨completes, restCompleted⟩ := completed
      have tail := inductionHypothesis (workspace.step operation) restCompleted
      rw [step_settings] at tail
      rw [List.foldl_cons, unionBehind_of_completes completes]
      exact tail

theorem unionCurrent_of_completed {settings : Settings} {operations : List Operation}
    (completed : (empty settings).Completed operations) : UnionCurrent settings operations :=
  foldl_unionBehind_of_completed (empty settings) operations completed

end Workspace

end GrammarLens
