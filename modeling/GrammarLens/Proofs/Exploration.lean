import GrammarLens.Proofs.ScanTour

/-!
Contract: what a traversal explores.

Owns:
- the depth-first order, as a relation between paths and stops that does not mention the
  worklist;
- trees whose names are names of entries;
- the directories that a tour meets: those that can be reached, each once, up to those behind
  an entry whose path exceeds a limit of the system and those behind a directory that may not
  be listed;
- explorations, which put these facts about the stops of a traversal together.

Does not own: what becomes of the files that are met.
-/

namespace GrammarLens

/-! ## Depth first -/

/-- All names in a directory, each once and in order. -/
structure FileTree.Lists (tree : FileTree) (place : Location) (names : List Text) : Prop where
  sorted : names.Pairwise fun left right => Text.le left right
  once : names.Nodup
  all : ∀ name, name ∈ names ↔ place ++ [name] ∈ tree.nodes.keys

theorem FileTree.lists_children (tree : FileTree) (place : Location) :
    tree.Lists place (tree.children place) where
  sorted := pairwise_children place
  once := nodup_children place
  all := fun _ => mem_children

/-- The stops for paths in depth-first order: what lies below a directory that is entered comes
before the next path. The visited directories grow from the first list to the last one. -/
inductive DepthFirst (tree : FileTree) :
    List Location → List Path → List Stop → List Location → Prop where
  | done (visited : List Location) : DepthFirst tree visited [] [] visited
  | refused {path : Path} {rest : List Path} {visited final : List Location} {stops : List Stop}
      {error : FileError} (failed : tree.directory? path.toText = .error error)
      (onward : DepthFirst tree visited rest stops final) :
      DepthFirst tree visited (path :: rest) (.refused path error :: stops) final
  | known {path : Path} {rest : List Path} {visited final : List Location} {stops : List Stop}
      {place : Location} (found : tree.directory? path.toText = .ok (some place))
      (seen : place ∈ visited) (onward : DepthFirst tree visited rest stops final) :
      DepthFirst tree visited (path :: rest) (.known path place :: stops) final
  | entered {path : Path} {rest : List Path} {visited between final : List Location}
      {below stops : List Stop} {place : Location} {names : List Text}
      (found : tree.directory? path.toText = .ok (some place)) (fresh : place ∉ visited)
      (granted : place ∉ tree.unreadable) (listed : tree.Lists place names)
      (inside : DepthFirst tree (place :: visited) (names.map path.child) below between)
      (onward : DepthFirst tree between rest stops final) :
      DepthFirst tree visited (path :: rest) (.entered path place :: (below ++ stops)) final
  | unlisted {path : Path} {rest : List Path} {visited final : List Location} {stops : List Stop}
      {place : Location} (found : tree.directory? path.toText = .ok (some place))
      (fresh : place ∉ visited) (denied : place ∈ tree.unreadable)
      (onward : DepthFirst tree (place :: visited) rest stops final) :
      DepthFirst tree visited (path :: rest) (.unlisted path place .permissionDenied :: stops) final
  | entry {path : Path} {rest : List Path} {visited final : List Location} {stops : List Stop}
      (other : tree.directory? path.toText = .ok none)
      (onward : DepthFirst tree visited rest stops final) :
      DepthFirst tree visited (path :: rest) (.entry path :: stops) final

section Order

variable {tree : FileTree} {pending : List Path} {visited final : List Location}
  {stops : List Stop}

/-- The stops for two lists of paths are those for the first, then those for the second. -/
theorem DepthFirst.split {first second : List Path}
    (explored : DepthFirst tree visited (first ++ second) stops final) :
    ∃ before after between, stops = before ++ after ∧
      DepthFirst tree visited first before between ∧
      DepthFirst tree between second after final := by
  generalize whole : first ++ second = paths at explored
  induction explored generalizing first with
  | done visited =>
      obtain ⟨rfl, rfl⟩ := List.append_eq_nil_iff.mp whole
      exact ⟨[], [], visited, rfl, .done visited, .done visited⟩
  | @refused path rest visited final stops error failed onward inductionHypothesis =>
      cases first with
      | nil =>
          obtain rfl : second = path :: rest := whole
          exact ⟨[], _, visited, rfl, .done visited, .refused failed onward⟩
      | cons current others =>
          obtain ⟨rfl, tail⟩ := List.cons.inj whole
          obtain ⟨before, after, between, rfl, left, right⟩ := inductionHypothesis tail
          exact ⟨_ :: before, after, between, rfl, .refused failed left, right⟩
  | @known path rest visited final stops place found seen onward inductionHypothesis =>
      cases first with
      | nil =>
          obtain rfl : second = path :: rest := whole
          exact ⟨[], _, visited, rfl, .done visited, .known found seen onward⟩
      | cons current others =>
          obtain ⟨rfl, tail⟩ := List.cons.inj whole
          obtain ⟨before, after, between, rfl, left, right⟩ := inductionHypothesis tail
          exact ⟨_ :: before, after, between, rfl, .known found seen left, right⟩
  | @entered path rest visited middle final below stops place names found fresh granted listed
      inside onward _ inductionHypothesis =>
      cases first with
      | nil =>
          obtain rfl : second = path :: rest := whole
          exact ⟨[], _, visited, rfl, .done visited,
            .entered found fresh granted listed inside onward⟩
      | cons current others =>
          obtain ⟨rfl, tail⟩ := List.cons.inj whole
          obtain ⟨before, after, between, rfl, left, right⟩ := inductionHypothesis tail
          refine ⟨_ :: (below ++ before), after, between, ?_,
            .entered found fresh granted listed inside left, right⟩
          simp
  | @unlisted path rest visited final stops place found fresh denied onward inductionHypothesis =>
      cases first with
      | nil =>
          obtain rfl : second = path :: rest := whole
          exact ⟨[], _, visited, rfl, .done visited, .unlisted found fresh denied onward⟩
      | cons current others =>
          obtain ⟨rfl, tail⟩ := List.cons.inj whole
          obtain ⟨before, after, between, rfl, left, right⟩ := inductionHypothesis tail
          exact ⟨_ :: before, after, between, rfl, .unlisted found fresh denied left, right⟩
  | @entry path rest visited final stops other onward inductionHypothesis =>
      cases first with
      | nil =>
          obtain rfl : second = path :: rest := whole
          exact ⟨[], _, visited, rfl, .done visited, .entry other onward⟩
      | cons current others =>
          obtain ⟨rfl, tail⟩ := List.cons.inj whole
          obtain ⟨before, after, between, rfl, left, right⟩ := inductionHypothesis tail
          exact ⟨_ :: before, after, between, rfl, .entry other left, right⟩

/-- The worklist takes paths up in depth-first order. -/
theorem Tour.depthFirst (tour : Tour tree pending visited stops) :
    ∃ final, DepthFirst tree visited pending stops final := by
  induction tour with
  | done visited => exact ⟨visited, .done visited⟩
  | refused failed _ inductionHypothesis =>
      obtain ⟨final, explored⟩ := inductionHypothesis
      exact ⟨final, .refused failed explored⟩
  | known found seen _ inductionHypothesis =>
      obtain ⟨final, explored⟩ := inductionHypothesis
      exact ⟨final, .known found seen explored⟩
  | entered found fresh given _ inductionHypothesis =>
      obtain ⟨granted, rfl⟩ := FileTree.list_eq_ok_iff.mp given
      obtain ⟨final, explored⟩ := inductionHypothesis
      obtain ⟨below, rest, between, rfl, inside, onward⟩ := explored.split
      exact ⟨final, .entered found fresh granted (tree.lists_children _) inside onward⟩
  | unlisted found fresh refused _ inductionHypothesis =>
      obtain ⟨denied, rfl⟩ := FileTree.list_eq_error_iff.mp refused
      obtain ⟨final, explored⟩ := inductionHypothesis
      exact ⟨final, .unlisted found fresh denied explored⟩
  | entry other _ inductionHypothesis =>
      obtain ⟨final, explored⟩ := inductionHypothesis
      exact ⟨final, .entry other explored⟩

end Order

/-! ## Reaching and missing directories -/

/-- A tree in which all names are names of entries. -/
def FileTree.IsNamed (tree : FileTree) : Prop :=
  ∀ place ∈ tree.current :: tree.nodes.keys, ∀ name ∈ place, Path.IsEntryName name

instance (tree : FileTree) : Decidable tree.IsNamed :=
  inferInstanceAs (Decidable (∀ place ∈ _, ∀ name ∈ place, Path.IsEntryName name))

/-- A directory lies behind an entry, met by a traversal, whose path exceeds a limit. -/
def LiesBeyondLimit (tree : FileTree) (stops : List Stop) (place : Location) : Prop :=
  ∃ listing ∈ listings stops, ∃ name target, tree.EntryLeadsTo listing.2 name target ∧
    tree.ExceedsLimit (listing.1.child name) ∧ tree.Reaches target place

/-- A directory can be reached from one that is met and may not be listed. -/
def LiesBehindDenial (tree : FileTree) (stops : List Stop) (place : Location) : Prop :=
  ∃ denied ∈ metPlaces stops, denied ∈ tree.unreadable ∧ tree.Reaches denied place

/-- What holds of every path of a traversal from a directory: it is rooted, and a directory to
which it leads can be reached. -/
structure StaysWithin (tree : FileTree) (home : Location) (path : Path) : Prop where
  rooted : path.IsRooted
  reached : ∀ place, tree.directory? path.toText = .ok (some place) → tree.Reaches home place

theorem staysWithin_start {tree : FileTree} {start : Path} (rooted : start.IsRooted)
    {home : Location} (found : tree.directory? start.toText = .ok (some home)) :
    ∀ path ∈ [start], StaysWithin tree home path := by
  intro path member
  rw [List.mem_singleton.mp member]
  refine ⟨rooted, fun place again => ?_⟩
  rw [found] at again
  obtain rfl : home = place := Option.some.inj (Except.ok.inj again)
  exact .refl

section Reaching

variable {tree : FileTree} (named : tree.IsNamed)

include named

theorem isEntryName_of_mem_keys {place : Location} {name : Text}
    (present : place ++ [name] ∈ tree.nodes.keys) : Path.IsEntryName name :=
  named _ (List.mem_cons_of_mem _ present) name (by simp)

theorem isRooted_scanStart (text : Text) :
    (Workspace.scanStart tree (Path.ofText text)).IsRooted := by
  have base : Path.IsRooted ⟨.root, tree.current⟩ :=
    { anchored := by simp
      occupied := fun part member => (named _ List.mem_cons_self part member).1
      plain := fun part member => (named _ List.mem_cons_self part member).2.1 }
  exact Path.isRooted_absoluteFrom base text

variable {home : Location} {pending : List Path} {visited : List Location} {stops : List Stop}

theorem StaysWithin.child {path : Path} (within : StaysWithin tree home path) {place : Location}
    (found : tree.directory? path.toText = .ok (some place)) {name : Text}
    (present : place ++ [name] ∈ tree.nodes.keys) :
    StaysWithin tree home (path.child name) where
  rooted := within.rooted.child (isEntryName_of_mem_keys named present)
  reached := by
    intro target below
    have leads := FileTree.entryLeadsTo_of_child within.rooted
      (isEntryName_of_mem_keys named present) present found below
    exact (within.reached place found).tail ⟨name, leads⟩

theorem Tour.staysWithin (tour : Tour tree pending visited stops)
    (within : ∀ path ∈ pending, StaysWithin tree home path) :
    ∀ path ∈ stops.map Stop.path, StaysWithin tree home path := by
  apply tour.forall_taken within
  intro path place name inside found child
  exact inside.child named found (FileTree.mem_children.mp child)

/-- An entry of a listed directory that leads to a directory gets that directory met, unless
the entry's path exceeds a limit. -/
theorem Tour.met_of_entryLeadsTo (tour : Tour tree pending [] stops)
    (within : ∀ path ∈ pending, StaysWithin tree home path) {listing : Path × Location}
    (listed : listing ∈ listings stops) {name : Text} {target : Location}
    (leads : tree.EntryLeadsTo listing.2 name target) :
    target ∈ metPlaces stops ∨ tree.ExceedsLimit (listing.1.child name) := by
  have rooted := (tour.staysWithin named within _ (Tour.path_of_listing listed)).rooted
  have proper := isEntryName_of_mem_keys named leads.1
  have found := tour.directory_of_listing listed
  rcases FileTree.directory?_child_of_entryLeadsTo rooted proper found leads with below | exceeds
  · left
    have taken := tour.takes_entries listing listed name (FileTree.mem_children.mpr leads.1)
    obtain ⟨stop, member, same⟩ := List.mem_map.mp taken
    have verdict := tour.verdict stop member
    rw [same, below] at verdict
    rcases tour.met_or_visited stop member target verdict.symm with old | now
    · simp at old
    · exact now
  · exact .inr exceeds

/-- Every directory that can be reached is met, or lies behind an entry whose path exceeds a
limit, or lies behind a directory that may not be listed. -/
theorem Tour.met_of_reaches (tour : Tour tree pending [] stops)
    (within : ∀ path ∈ pending, StaysWithin tree home path)
    (start : home ∈ metPlaces stops) {place : Location} (reached : tree.Reaches home place) :
    place ∈ metPlaces stops ∨ LiesBeyondLimit tree stops place ∨
      LiesBehindDenial tree stops place := by
  -- Along the way the last directory that is met decides why what comes after it is missed.
  induction reached with
  | refl => exact .inl start
  | @tail middle place _ step inductionHypothesis =>
      obtain ⟨name, leads⟩ := step
      rcases inductionHypothesis with
        here | ⟨listing, listed, other, target, away, exceeds, far⟩ | ⟨denied, met, refused, far⟩
      · by_cases granted : middle ∈ tree.unreadable
        · exact .inr (.inr ⟨middle, here, granted, .single ⟨name, leads⟩⟩)
        · have listedHere := (tour.mem_listedPlaces_iff middle).mpr ⟨here, granted⟩
          obtain ⟨listing, listed, rfl⟩ := List.mem_map.mp listedHere
          rcases tour.met_of_entryLeadsTo named within listed leads with now | exceeds
          · exact .inl now
          · exact .inr (.inl ⟨listing, listed, name, place, leads, exceeds, .refl⟩)
      · exact .inr (.inl ⟨listing, listed, other, target, away, exceeds, far.tail ⟨name, leads⟩⟩)
      · exact .inr (.inr ⟨denied, met, refused, far.tail ⟨name, leads⟩⟩)

end Reaching

/-! ## Explorations -/

/-- The stops of a traversal that starts at a path which leads to a directory. -/
structure Explores (tree : FileTree) (start : Path) (home : Location) (stops : List Stop) :
    Prop where
  /-- The traversal ends: it takes up no more paths than there are nodes, and the start. -/
  bounded : stops.length ≤ tree.nodes.size + 1
  depthFirst : ∃ final, DepthFirst tree [] [start] stops final
  /-- Taken up are the start and all entries of listed directories. -/
  paths : ∀ path, path ∈ stops.map Stop.path ↔ path = start ∨
    ∃ listing ∈ listings stops, ∃ name, listing.2 ++ [name] ∈ tree.nodes.keys ∧
      path = listing.1.child name
  pathsOnce : (stops.map Stop.path).Nodup
  verdicts : ∀ stop ∈ stops, tree.directory? stop.path.toText = stop.verdict
  metOnce : (metPlaces stops).Nodup
  listedOnce : (listedPlaces stops).Nodup
  /-- A directory that is met is listed, unless that is denied. -/
  listed : ∀ place, place ∈ listedPlaces stops ↔ place ∈ metPlaces stops ∧ place ∉ tree.unreadable
  reachable : ∀ place ∈ metPlaces stops, tree.Reaches home place
  complete : ∀ place, tree.Reaches home place →
    place ∈ metPlaces stops ∨ LiesBeyondLimit tree stops place ∨ LiesBehindDenial tree stops place

theorem Tour.explores {tree : FileTree} (named : tree.IsNamed) {start : Path}
    (rooted : start.IsRooted) {home : Location}
    (found : tree.directory? start.toText = .ok (some home)) {stops : List Stop}
    (tour : Tour tree [start] [] stops) : Explores tree start home stops := by
  have within := staysWithin_start rooted found
  have startTaken := tour.takes_pending start List.mem_cons_self
  have homeMet : home ∈ metPlaces stops := by
    obtain ⟨stop, member, same⟩ := List.mem_map.mp startTaken
    have verdict := tour.verdict stop member
    rw [same, found] at verdict
    rcases tour.met_or_visited stop member home verdict.symm with old | now
    · simp at old
    · exact now
  refine
    { bounded := ?_, depthFirst := tour.depthFirst, paths := ?_,
      pathsOnce := tour.nodup_paths (Tour.orderly_start tree start), verdicts := tour.verdict,
      metOnce := tour.nodup_metPlaces, listedOnce := tour.nodup_listedPlaces,
      listed := tour.mem_listedPlaces_iff, reachable := ?_,
      complete := fun place reached => tour.met_of_reaches named within homeMet reached }
  · have entries : ((listedPlaces stops).map fun place => (tree.children place).length).sum ≤
        tree.nodes.size := FileTree.sum_length_children_le tour.nodup_listedPlaces
    rw [tour.length_eq, List.length_singleton]
    omega
  · intro path
    constructor
    · intro taken
      rcases tour.origin path taken with waiting | ⟨listing, listed, name, child, same⟩
      · exact .inl (List.mem_singleton.mp waiting)
      · exact .inr ⟨listing, listed, name, FileTree.mem_children.mp child, same⟩
    · rintro (rfl | ⟨listing, listed, name, present, rfl⟩)
      · exact startTaken
      · exact tour.takes_entries listing listed name (FileTree.mem_children.mpr present)
  · intro place met
    obtain ⟨stop, member, found⟩ := exists_stop_of_met met
    have path := tour.staysWithin named within _ (List.mem_map_of_mem member)
    exact path.reached place ((tour.verdict stop member).trans found)

end GrammarLens
