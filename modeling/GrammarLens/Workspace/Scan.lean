import GrammarLens.Workspace

/-!
Contract: indexing every grammar file below a directory.

Owns:
- the traversal: depth first, the entries of a directory in sorted order, each real
  directory once however many links lead to it. It ends because every directory that it
  enters takes a location away from those not yet visited. A directory that cannot be listed
  counts as visited too;
- the scan: what the traversal met is indexed in order, and the union of attributes is
  formed at its end.
-/

namespace GrammarLens

/-- What the traversal reports about an entry. -/
inductive Visit where
  | indexed (uri text : Text)
  | failed (failure : ScanFailure)
deriving DecidableEq, Repr

/-- The outcome of scanning a root. -/
structure ScanReport where
  root : Path
  indexed : List Text
  failures : List ScanFailure
deriving DecidableEq, Repr

namespace FileTree

theorem mem_locations_of_node? {tree : FileTree} {place : Location} {node : Node}
    (present : tree.node? place = some node) : place ∈ tree.locations := by
  cases place with
  | nil => simp [locations]
  | cons first rest =>
    have found : Table.findIn (first :: rest) tree.nodes.entries = some node := present
    have member : ∀ entries : List (Location × Node),
        Table.findIn (first :: rest) entries = some node →
          (first :: rest) ∈ entries.map Prod.fst := by
      intro entries
      induction entries with
      | nil => simp [Table.findIn]
      | cons head tail inductionHypothesis =>
        obtain ⟨key, value⟩ := head
        by_cases same : key = first :: rest
        · simp [same]
        · intro inTail
          rw [Table.findIn, if_neg (by simpa using same)] at inTail
          exact List.mem_cons_of_mem _ (inductionHypothesis inTail)
    exact List.mem_cons_of_mem _ (member tree.nodes.entries found)

theorem mem_locations_of_directory? {tree : FileTree} {path : Text} {place : Location}
    (found : tree.directory? path = .ok (some place)) : place ∈ tree.locations := by
  unfold directory? at found
  cases located : tree.locate? path with
  | error error => simp [located, Except.map] at found
  | ok candidate =>
    cases candidate with
    | none => simp [located, Except.map] at found
    | some other =>
      simp only [located, Except.map, Except.ok.injEq, Option.filter_eq_some_iff] at found
      obtain ⟨same, directory⟩ := found
      obtain rfl := Option.some.inj same
      exact mem_locations_of_node? (by simpa [isDirectoryAt] using directory)

/-- Visiting a location for the first time leaves fewer unvisited ones. -/
theorem unvisited_cons_lt {tree : FileTree} {visited : List Location} {place : Location}
    (present : place ∈ tree.locations) (fresh : place ∉ visited) :
    tree.unvisited (place :: visited) < tree.unvisited visited := by
  have narrower : (tree.locations.filter fun other => other ∉ place :: visited) =
      (tree.locations.filter fun other => other ∉ visited).filter fun other => other ≠ place := by
    rw [List.filter_filter]
    congr 1
    funext other
    simp [List.mem_cons, not_or]
  unfold unvisited
  rw [narrower]
  have member : place ∈ tree.locations.filter fun other => other ∉ visited := by
    simp [present, fresh]
  exact List.length_filter_lt_length_iff_exists.mpr ⟨place, member, by simp⟩

end FileTree

namespace Workspace

/-- What becomes of an entry that is not a directory: nothing without the extension, and
otherwise its text or the reason why it cannot be read. -/
def visitFile (settings : Settings) (tree : FileTree) (path : Path) :
    Except Fault (Option Visit) :=
  match settings.hasExtension path.name with
  | .error fault => .error (.settings fault)
  | .ok false => .ok none
  | .ok true =>
    match tree.read path.toText with
    | .error .nullCharacter => .error .nullCharacter
    | .error (.error cause) => .ok (some (.failed ⟨path, cause⟩))
    | .ok text =>
      match Uri.ofFilePath path.toText with
      | .error error => .error (.uri error)
      | .ok uri => .ok (some (.indexed uri text))

set_option linter.unusedVariables false in
/-- The visits of a traversal with `pending` entries to come and the `visited` directories
behind it, and the fault that cut it short, if one did. -/
def traverse (settings : Settings) (tree : FileTree) (pending : List Path)
    (visited : List Location) : List Visit × Option Fault :=
  match pending with
  | [] => ([], none)
  | path :: rest =>
    match found : tree.directory? path.toText with
    | .error error =>
      let (visits, fault) := traverse settings tree rest visited
      (.failed ⟨path, error.at path.toText⟩ :: visits, fault)
    | .ok (some place) =>
      if seen : place ∈ visited then traverse settings tree rest visited
      else
        match tree.list place with
        | .error error =>
          let (visits, fault) := traverse settings tree rest (place :: visited)
          (.failed ⟨path, error.at path.toText⟩ :: visits, fault)
        | .ok names => traverse settings tree (names.map path.child ++ rest) (place :: visited)
    | .ok none =>
      match visitFile settings tree path with
      | .error fault => ([], some fault)
      | .ok visit =>
        let (visits, fault) := traverse settings tree rest visited
        (visit.toList ++ visits, fault)
termination_by (tree.unvisited visited, pending.length)
decreasing_by
  · exact Prod.Lex.right _ (by simp)
  · exact Prod.Lex.right _ (by simp)
  · exact Prod.Lex.left _ _
      (FileTree.unvisited_cons_lt (FileTree.mem_locations_of_directory? found) seen)
  · exact Prod.Lex.left _ _
      (FileTree.unvisited_cons_lt (FileTree.mem_locations_of_directory? found) seen)
  · exact Prod.Lex.right _ (by simp)

/-- Takes in one visit. -/
def takeIn (workspace : Workspace) : Visit → Workspace
  | .indexed uri text => (workspace.register uri text).indexTags text (some uri)
  | .failed _ => workspace

/-- What taking in one visit reports. -/
def takeInNotices (workspace : Workspace) : Visit → List Notice
  | .indexed uri text => workspace.indexNotices uri text
  | .failed failure => [.scanFailed failure]

/-- What taking in visits one after the other reports. -/
def visitNotices (workspace : Workspace) : List Visit → List Notice
  | [] => []
  | visit :: rest => workspace.takeInNotices visit ++ (workspace.takeIn visit).visitNotices rest

/-- The files and the failures among visits. -/
def reportOf (root : Path) (visits : List Visit) : ScanReport where
  root := root
  indexed := visits.filterMap fun
    | .indexed uri _ => some uri
    | .failed _ => none
  failures := visits.filterMap fun
    | .indexed _ _ => none
    | .failed failure => some failure

/-- Indexes every grammar file below a root, which is registered first. A root that is not a
directory leaves it at that. -/
def scan (workspace : Workspace) (tree : FileTree) (root : Path) : Reply Workspace ScanReport :=
  let absolute := Path.absoluteFrom ⟨.root, tree.current⟩ root
  let rooted := workspace.addRoot absolute
  match tree.directory? absolute.toText with
  | .error error => ⟨rooted, [], .error (.unreadable (error.at absolute.toText))⟩
  | .ok none => ⟨rooted, [.rootNotADirectory absolute], .ok ⟨absolute, [], []⟩⟩
  | .ok (some _) =>
    let (visits, fault) := traverse workspace.settings tree [absolute] []
    let indexed := visits.foldl takeIn rooted
    let notices := rooted.visitNotices visits
    match fault with
    | some fault => ⟨indexed, notices, .error fault⟩
    | none =>
      let report := reportOf absolute visits
      ⟨indexed.rebuild,
        notices ++ [.scanned absolute report.indexed.length report.failures.length], .ok report⟩

/-- Scans roots one after the other, up to the first fault. -/
def scanAll (workspace : Workspace) (tree : FileTree) : List Path → Reply Workspace Unit
  | [] => ⟨workspace, [], .ok ()⟩
  | root :: rest => (workspace.scan tree root).andThen fun scanned _ => scanned.scanAll tree rest

end Workspace

end GrammarLens
