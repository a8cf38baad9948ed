import GrammarLens.Proofs.History
import GrammarLens.Proofs.PathResolution
import Mathlib.Data.List.Nodup

/-!
Contract: the traversal of a scan, path by path.

Owns:
- stops: what the traversal does with a path that it takes up;
- tours: the finished runs of the traversal's loop, one rule for each kind of stop. Every
  worklist has a tour, so the loop ends;
- what a tour takes up: the paths it starts with and the entries of the directories it
  lists, each directory once and each path once. A directory that cannot be listed is met and
  not met again;
- the visits of a traversal as those of the stops of its tour.

Does not own: which directories can be reached; what a scan does with its visits.
-/

namespace GrammarLens

/-- What a traversal does with a path that it takes up. -/
inductive Stop where
  /-- The check of the path fails. -/
  | refused (path : Path) (error : FileError)
  /-- A directory that was met before. -/
  | known (path : Path) (place : Location)
  /-- A directory, met for the first time and listed. -/
  | entered (path : Path) (place : Location)
  /-- A directory, met for the first time, that cannot be listed. -/
  | unlisted (path : Path) (place : Location) (error : FileError)
  /-- Not a directory. -/
  | entry (path : Path)
deriving DecidableEq, Repr

namespace Stop

def path : Stop → Path
  | refused path _ | known path _ | entered path _ | unlisted path _ _ | entry path => path

/-- What the check for a directory answers at a stop. -/
def verdict : Stop → Except FileError (Option Location)
  | refused _ error => .error error
  | known _ place | entered _ place | unlisted _ place _ => .ok (some place)
  | entry _ => .ok none

/-- The directory that is listed at a stop, with the path under which its entries are taken
up. -/
def listing? : Stop → Option (Path × Location)
  | entered path place => some (path, place)
  | refused _ _ | known _ _ | unlisted _ _ _ | entry _ => none

/-- The directory that is met for the first time at a stop, whether it can be listed or not. -/
def met? : Stop → Option Location
  | entered _ place | unlisted _ place _ => some place
  | refused _ _ | known _ _ | entry _ => none

end Stop

def listings (stops : List Stop) : List (Path × Location) := stops.filterMap Stop.listing?

theorem mem_listings {stops : List Stop} {listing : Path × Location} :
    listing ∈ listings stops ↔ .entered listing.1 listing.2 ∈ stops := by
  rw [listings, List.mem_filterMap]
  constructor
  · rintro ⟨stop, member, found⟩
    cases stop with
    | entered path place =>
        obtain rfl := Option.some.inj found
        exact member
    | refused path error => simp [Stop.listing?] at found
    | known path place => simp [Stop.listing?] at found
    | unlisted path place error => simp [Stop.listing?] at found
    | entry path => simp [Stop.listing?] at found
  · exact fun member => ⟨_, member, rfl⟩

/-- The places of the directories listed along stops. -/
def listedPlaces (stops : List Stop) : List Location := (listings stops).map Prod.snd

/-- The places of the directories met along stops. -/
def metPlaces (stops : List Stop) : List Location := stops.filterMap Stop.met?

theorem listedPlaces_sublist (stops : List Stop) :
    (listedPlaces stops).Sublist (metPlaces stops) := by
  induction stops with
  | nil => exact .slnil
  | cons stop rest inductionHypothesis =>
      cases stop with
      | entered path place => exact inductionHypothesis.cons_cons place
      | unlisted path place error => exact inductionHypothesis.cons place
      | refused path error => exact inductionHypothesis
      | known path place => exact inductionHypothesis
      | entry path => exact inductionHypothesis

theorem exists_stop_of_met {stops : List Stop} {place : Location} (met : place ∈ metPlaces stops) :
    ∃ stop ∈ stops, stop.verdict = .ok (some place) := by
  obtain ⟨stop, member, found⟩ := List.mem_filterMap.mp met
  refine ⟨stop, member, ?_⟩
  cases stop with
  | entered path other => rw [← found]; rfl
  | unlisted path other error => rw [← found]; rfl
  | refused path error => simp [Stop.met?] at found
  | known path other => simp [Stop.met?] at found
  | entry path => simp [Stop.met?] at found

/-- The stops of the traversal's loop for pending paths, when the visited directories lie behind
it. The entries of a directory are taken up before the paths that were pending. -/
inductive Tour (tree : FileTree) : List Path → List Location → List Stop → Prop where
  | done (visited : List Location) : Tour tree [] visited []
  | refused {path : Path} {rest : List Path} {visited : List Location} {stops : List Stop}
      {error : FileError} (failed : tree.directory? path.toText = .error error)
      (onward : Tour tree rest visited stops) :
      Tour tree (path :: rest) visited (.refused path error :: stops)
  | known {path : Path} {rest : List Path} {visited : List Location} {stops : List Stop}
      {place : Location} (found : tree.directory? path.toText = .ok (some place))
      (seen : place ∈ visited) (onward : Tour tree rest visited stops) :
      Tour tree (path :: rest) visited (.known path place :: stops)
  | entered {path : Path} {rest : List Path} {visited : List Location} {stops : List Stop}
      {place : Location} {names : List Text}
      (found : tree.directory? path.toText = .ok (some place)) (fresh : place ∉ visited)
      (listed : tree.list place = .ok names)
      (onward : Tour tree (names.map path.child ++ rest) (place :: visited) stops) :
      Tour tree (path :: rest) visited (.entered path place :: stops)
  | unlisted {path : Path} {rest : List Path} {visited : List Location} {stops : List Stop}
      {place : Location} {error : FileError}
      (found : tree.directory? path.toText = .ok (some place)) (fresh : place ∉ visited)
      (denied : tree.list place = .error error) (onward : Tour tree rest (place :: visited) stops) :
      Tour tree (path :: rest) visited (.unlisted path place error :: stops)
  | entry {path : Path} {rest : List Path} {visited : List Location} {stops : List Stop}
      (other : tree.directory? path.toText = .ok none) (onward : Tour tree rest visited stops) :
      Tour tree (path :: rest) visited (.entry path :: stops)

/-- The loop ends: entering a directory takes a location away from the unvisited ones, and every
other stop takes a path away from the pending ones. -/
theorem exists_tour (tree : FileTree) (pending : List Path) (visited : List Location) :
    ∃ stops, Tour tree pending visited stops := by
  match pending with
  | [] => exact ⟨[], .done visited⟩
  | path :: rest =>
      match found : tree.directory? path.toText with
      | .error error =>
          obtain ⟨stops, onward⟩ := exists_tour tree rest visited
          exact ⟨_, .refused found onward⟩
      | .ok none =>
          obtain ⟨stops, onward⟩ := exists_tour tree rest visited
          exact ⟨_, .entry found onward⟩
      | .ok (some place) =>
          by_cases seen : place ∈ visited
          · obtain ⟨stops, onward⟩ := exists_tour tree rest visited
            exact ⟨_, .known found seen onward⟩
          · cases listed : tree.list place with
            | ok names =>
                obtain ⟨stops, onward⟩ :=
                  exists_tour tree (names.map path.child ++ rest) (place :: visited)
                exact ⟨_, .entered found seen listed onward⟩
            | error error =>
                obtain ⟨stops, onward⟩ := exists_tour tree rest (place :: visited)
                exact ⟨_, .unlisted found seen listed onward⟩
termination_by (tree.unvisited visited, pending.length)
decreasing_by
  · exact Prod.Lex.right _ (by simp)
  · exact Prod.Lex.right _ (by simp)
  · exact Prod.Lex.right _ (by simp)
  · exact Prod.Lex.left _ _
      (FileTree.unvisited_cons_lt (FileTree.mem_locations_of_directory? found) seen)
  · exact Prod.Lex.left _ _
      (FileTree.unvisited_cons_lt (FileTree.mem_locations_of_directory? found) seen)

namespace Tour

variable {tree : FileTree} {pending : List Path} {visited : List Location} {stops : List Stop}

/-! ## What a tour takes up -/

theorem verdict (tour : Tour tree pending visited stops) :
    ∀ stop ∈ stops, tree.directory? stop.path.toText = stop.verdict := by
  induction tour with
  | done => simp
  | refused failed _ inductionHypothesis => simpa [Stop.path, Stop.verdict, failed]
  | known found _ _ inductionHypothesis => simpa [Stop.path, Stop.verdict, found]
  | entered found _ _ _ inductionHypothesis => simpa [Stop.path, Stop.verdict, found]
  | unlisted found _ _ _ inductionHypothesis => simpa [Stop.path, Stop.verdict, found]
  | entry other _ inductionHypothesis => simpa [Stop.path, Stop.verdict, other]

theorem takes_pending (tour : Tour tree pending visited stops) :
    ∀ path ∈ pending, path ∈ stops.map Stop.path := by
  induction tour with
  | done => simp
  | refused _ _ inductionHypothesis
  | known _ _ _ inductionHypothesis
  | unlisted _ _ _ _ inductionHypothesis
  | entry _ _ inductionHypothesis =>
      intro path member
      rcases List.mem_cons.mp member with rfl | later
      · exact List.mem_cons_self
      · exact List.mem_cons_of_mem _ (inductionHypothesis path later)
  | entered _ _ _ _ inductionHypothesis =>
      intro path member
      rcases List.mem_cons.mp member with rfl | later
      · exact List.mem_cons_self
      · exact List.mem_cons_of_mem _
          (inductionHypothesis path (List.mem_append_right _ later))

/-- Every entry of a directory that is listed is taken up. -/
theorem takes_entries (tour : Tour tree pending visited stops) :
    ∀ listing ∈ listings stops, ∀ name ∈ tree.children listing.2,
      listing.1.child name ∈ stops.map Stop.path := by
  induction tour with
  | done => simp [listings]
  | refused _ _ inductionHypothesis
  | known _ _ _ inductionHypothesis
  | unlisted _ _ _ _ inductionHypothesis
  | entry _ _ inductionHypothesis =>
      intro listing listed name child
      exact List.mem_cons_of_mem _ (inductionHypothesis listing listed name child)
  | entered _ _ given onward inductionHypothesis =>
      intro listing listed name child
      apply List.mem_cons_of_mem
      rcases List.mem_cons.mp listed with rfl | later
      · apply onward.takes_pending
        rw [(FileTree.list_eq_ok_iff.mp given).2]
        exact List.mem_append_left _ (List.mem_map_of_mem child)
      · exact inductionHypothesis listing later name child

/-- What is taken up was pending or is an entry of a directory that is listed. -/
theorem origin (tour : Tour tree pending visited stops) :
    ∀ path ∈ stops.map Stop.path, path ∈ pending ∨
      ∃ listing ∈ listings stops, ∃ name ∈ tree.children listing.2,
        path = listing.1.child name := by
  induction tour with
  | done => simp
  | refused _ _ inductionHypothesis
  | known _ _ _ inductionHypothesis
  | unlisted _ _ _ _ inductionHypothesis
  | entry _ _ inductionHypothesis =>
      intro path member
      rcases List.mem_cons.mp member with rfl | later
      · exact .inl List.mem_cons_self
      · rcases inductionHypothesis path later with waiting | found
        · exact .inl (List.mem_cons_of_mem _ waiting)
        · exact .inr found
  | @entered current rest visited stops place names _ _ given _ inductionHypothesis =>
      rw [(FileTree.list_eq_ok_iff.mp given).2] at inductionHypothesis
      intro path member
      rcases List.mem_cons.mp member with rfl | later
      · exact .inl List.mem_cons_self
      · rcases inductionHypothesis path later with waiting | ⟨listing, listed, found⟩
        · rcases List.mem_append.mp waiting with child | old
          · obtain ⟨name, entryOf, rfl⟩ := List.mem_map.mp child
            exact .inr ⟨(current, place), List.mem_cons_self, name, entryOf, rfl⟩
          · exact .inl (List.mem_cons_of_mem _ old)
        · exact .inr ⟨listing, List.mem_cons_of_mem _ listed, found⟩

/-- What holds of the pending paths and passes on to the entries of a directory holds of all that
is taken up. -/
theorem forall_taken {holds : Path → Prop} (tour : Tour tree pending visited stops)
    (before : ∀ path ∈ pending, holds path)
    (passes : ∀ path place name, holds path → tree.directory? path.toText = .ok (some place) →
      name ∈ tree.children place → holds (path.child name)) :
    ∀ path ∈ stops.map Stop.path, holds path := by
  induction tour with
  | done => simp
  | refused _ _ inductionHypothesis
  | known _ _ _ inductionHypothesis
  | unlisted _ _ _ _ inductionHypothesis
  | entry _ _ inductionHypothesis =>
      intro path member
      rcases List.mem_cons.mp member with rfl | later
      · exact before _ List.mem_cons_self
      · apply inductionHypothesis _ path later
        exact fun other waiting => before other (List.mem_cons_of_mem _ waiting)
  | @entered current rest visited stops place names found _ given _ inductionHypothesis =>
      rw [(FileTree.list_eq_ok_iff.mp given).2] at inductionHypothesis
      intro path member
      rcases List.mem_cons.mp member with rfl | later
      · exact before _ List.mem_cons_self
      · apply inductionHypothesis _ path later
        intro other waiting
        rcases List.mem_append.mp waiting with child | old
        · obtain ⟨name, entryOf, rfl⟩ := List.mem_map.mp child
          exact passes current place name (before current List.mem_cons_self) found entryOf
        · exact before other (List.mem_cons_of_mem _ old)

/-- A directory that is met for the first time had not been visited. -/
theorem met_fresh (tour : Tour tree pending visited stops) :
    ∀ place ∈ metPlaces stops, place ∉ visited := by
  induction tour with
  | done => simp [metPlaces]
  | refused _ _ inductionHypothesis
  | known _ _ _ inductionHypothesis
  | entry _ _ inductionHypothesis => exact inductionHypothesis
  | entered _ fresh _ _ inductionHypothesis
  | unlisted _ fresh _ _ inductionHypothesis =>
      intro place met
      rcases List.mem_cons.mp met with rfl | later
      · exact fresh
      · exact fun old => inductionHypothesis place later (List.mem_cons_of_mem _ old)

theorem nodup_metPlaces (tour : Tour tree pending visited stops) : (metPlaces stops).Nodup := by
  induction tour with
  | done => simp [metPlaces]
  | refused _ _ inductionHypothesis
  | known _ _ _ inductionHypothesis
  | entry _ _ inductionHypothesis => exact inductionHypothesis
  | entered _ _ _ onward inductionHypothesis
  | unlisted _ _ _ onward inductionHypothesis =>
      refine List.nodup_cons.mpr ⟨?_, inductionHypothesis⟩
      exact fun again => onward.met_fresh _ again List.mem_cons_self

theorem nodup_listedPlaces (tour : Tour tree pending visited stops) :
    (listedPlaces stops).Nodup :=
  tour.nodup_metPlaces.sublist (listedPlaces_sublist stops)

/-- A directory that is met is listed, unless listing it is denied. -/
theorem mem_listedPlaces_iff (tour : Tour tree pending visited stops) (place : Location) :
    place ∈ listedPlaces stops ↔ place ∈ metPlaces stops ∧ place ∉ tree.unreadable := by
  induction tour with
  | done => simp [listedPlaces, listings, metPlaces]
  | refused _ _ inductionHypothesis
  | known _ _ _ inductionHypothesis
  | entry _ _ inductionHypothesis => exact inductionHypothesis
  | @entered _ _ _ stops here _ _ _ listed _ inductionHypothesis =>
      have granted := (FileTree.list_eq_ok_iff.mp listed).1
      change place ∈ here :: listedPlaces stops ↔ place ∈ here :: metPlaces stops ∧ _
      rw [List.mem_cons, List.mem_cons, inductionHypothesis, or_and_right]
      exact or_congr_left ⟨fun same => ⟨same, same ▸ granted⟩, And.left⟩
  | @unlisted _ _ _ stops here _ _ _ denied _ inductionHypothesis =>
      have denied := (FileTree.list_eq_error_iff.mp denied).1
      change place ∈ listedPlaces stops ↔ place ∈ here :: metPlaces stops ∧ _
      rw [List.mem_cons, inductionHypothesis, or_and_right]
      exact (or_iff_right fun here => here.2 (here.1 ▸ denied)).symm

/-- A directory that is taken up is met for the first time, now or before. -/
theorem met_or_visited (tour : Tour tree pending visited stops) :
    ∀ stop ∈ stops, ∀ place, stop.verdict = .ok (some place) →
      place ∈ visited ∨ place ∈ metPlaces stops := by
  induction tour with
  | done => simp
  | refused _ _ inductionHypothesis
  | entry _ _ inductionHypothesis =>
      intro stop member place found
      rcases List.mem_cons.mp member with rfl | later
      · simp [Stop.verdict] at found
      · exact inductionHypothesis stop later place found
  | known _ seen _ inductionHypothesis =>
      intro stop member place found
      rcases List.mem_cons.mp member with rfl | later
      · simp only [Stop.verdict, Except.ok.injEq, Option.some.injEq] at found
        exact .inl (found ▸ seen)
      · exact inductionHypothesis stop later place found
  | entered _ _ _ _ inductionHypothesis
  | unlisted _ _ _ _ inductionHypothesis =>
      intro stop member place found
      rcases List.mem_cons.mp member with rfl | later
      · simp only [Stop.verdict, Except.ok.injEq, Option.some.injEq] at found
        exact .inr (found ▸ List.mem_cons_self)
      · rcases inductionHypothesis stop later place found with old | met
        · rcases List.mem_cons.mp old with rfl | older
          · exact .inr List.mem_cons_self
          · exact .inl older
        · exact .inr (List.mem_cons_of_mem _ met)

/-- A tour takes up as many paths as were pending and as the listed directories have entries. -/
theorem length_eq (tour : Tour tree pending visited stops) :
    stops.length =
      pending.length + ((listedPlaces stops).map fun place => (tree.children place).length).sum := by
  induction tour with
  | done => rfl
  | refused _ _ inductionHypothesis
  | known _ _ _ inductionHypothesis
  | unlisted _ _ _ _ inductionHypothesis
  | entry _ _ inductionHypothesis =>
      rw [List.length_cons, List.length_cons, inductionHypothesis, Nat.add_right_comm]
      rfl
  | entered _ _ given _ inductionHypothesis =>
      rw [List.length_cons, List.length_cons, inductionHypothesis, List.length_append,
        List.length_map, (FileTree.list_eq_ok_iff.mp given).2]
      simp only [listedPlaces, listings, List.filterMap_cons, Stop.listing?, List.map_cons,
        List.sum_cons]
      omega

theorem directory_of_listing (tour : Tour tree pending visited stops) {listing : Path × Location}
    (listed : listing ∈ listings stops) :
    tree.directory? listing.1.toText = .ok (some listing.2) :=
  tour.verdict _ (mem_listings.mp listed)

theorem path_of_listing {listing : Path × Location} (listed : listing ∈ listings stops) :
    listing.1 ∈ stops.map Stop.path :=
  List.mem_map.mpr ⟨_, mem_listings.mp listed, rfl⟩

/-! ## Each path once -/

/-- Where a path comes from: it is the start, or an entry of a visited directory. -/
def ComesFrom (tree : FileTree) (start : Path) (visited : List Location) (path : Path) : Prop :=
  path = start ∨ ∃ (parent : Path) (name : Text) (place : Location), path = parent.child name ∧
    tree.directory? parent.toText = .ok (some place) ∧ place ∈ visited

theorem ComesFrom.mono {start path : Path} {before after : List Location}
    (comes : ComesFrom tree start before path) (older : ∀ place ∈ before, place ∈ after) :
    ComesFrom tree start after path := by
  rcases comes with rfl | ⟨parent, name, place, same, found, seen⟩
  · exact .inl rfl
  · exact .inr ⟨parent, name, place, same, found, older place seen⟩

theorem continues (tour : Tour tree pending visited stops) {start : Path}
    (below : ∀ path ∈ pending, path.Continues start) :
    ∀ path ∈ stops.map Stop.path, path.Continues start := by
  apply tour.forall_taken below
  intro path place name continues _ _
  exact continues.child name

/-- A path that is not pending any more is not taken up again. -/
theorem not_taken_again (tour : Tour tree pending visited stops) {start path : Path}
    (comes : ComesFrom tree start visited path)
    (below : ∀ other ∈ pending, other.Continues start)
    (absent : path ∉ pending) : path ∉ stops.map Stop.path := by
  intro member
  rcases tour.origin path member with waiting | ⟨listing, listed, name, -, same⟩
  · exact absent waiting
  · rcases comes with rfl | ⟨parent, other, place, again, found, seen⟩
    · -- An entry of a listed directory is longer than the start.
      have longer := (tour.continues below listing.1 (path_of_listing listed)).length_le
      rw [same, Path.length_parts_child] at longer
      omega
    · -- Its directory would have been visited before it is listed.
      obtain ⟨rfl, -⟩ := Path.child_inj.mp (again.symm.trans same)
      have entered := tour.directory_of_listing listed
      rw [found] at entered
      obtain rfl : place = listing.2 := Option.some.inj (Except.ok.inj entered)
      have met := (listedPlaces_sublist stops).subset (List.mem_map_of_mem listed)
      exact tour.met_fresh _ met seen

/-- Pending paths of a loop that was started at a path: each once, each a continuation of the
start and from a visited directory. -/
structure Orderly (tree : FileTree) (start : Path) (pending : List Path)
    (visited : List Location) : Prop where
  once : pending.Nodup
  below : ∀ path ∈ pending, path.Continues start
  comes : ∀ path ∈ pending, ComesFrom tree start visited path

theorem orderly_start (tree : FileTree) (start : Path) : Orderly tree start [start] [] where
  once := by simp
  below := by simp [Path.Continues.refl]
  comes := by simp [ComesFrom]

theorem Orderly.tail {start path : Path} {rest : List Path}
    (orderly : Orderly tree start (path :: rest) visited) : Orderly tree start rest visited where
  once := (List.nodup_cons.mp orderly.once).2
  below := fun other waiting => orderly.below other (List.mem_cons_of_mem _ waiting)
  comes := fun other waiting => orderly.comes other (List.mem_cons_of_mem _ waiting)

theorem Orderly.pass {start path : Path} {rest : List Path}
    (orderly : Orderly tree start (path :: rest) visited) (place : Location) :
    Orderly tree start rest (place :: visited) where
  once := orderly.tail.once
  below := orderly.tail.below
  comes := fun other waiting =>
    (orderly.tail.comes other waiting).mono fun _ seen => List.mem_cons_of_mem _ seen

theorem Orderly.enter {start path : Path} {rest : List Path} {place : Location}
    (orderly : Orderly tree start (path :: rest) visited)
    (found : tree.directory? path.toText = .ok (some place)) (fresh : place ∉ visited) :
    Orderly tree start ((tree.children place).map path.child ++ rest) (place :: visited) where
  once := by
    rw [List.nodup_append]
    refine ⟨?_, orderly.tail.once, ?_⟩
    · exact List.Nodup.map (fun _ _ same => (Path.child_inj.mp same).2)
        (FileTree.nodup_children place)
    · rintro _ child other old rfl
      obtain ⟨name, -, rfl⟩ := List.mem_map.mp child
      rcases orderly.tail.comes _ old with isStart | ⟨parent, otherName, known, same, held, seen⟩
      · have longer := (orderly.below path List.mem_cons_self).length_le
        rw [← isStart, Path.length_parts_child] at longer
        omega
      · obtain ⟨rfl, -⟩ := Path.child_inj.mp same
        rw [found] at held
        obtain rfl : place = known := Option.some.inj (Except.ok.inj held)
        exact fresh seen
  below := by
    intro other waiting
    rcases List.mem_append.mp waiting with child | old
    · obtain ⟨name, -, rfl⟩ := List.mem_map.mp child
      exact (orderly.below path List.mem_cons_self).child name
    · exact orderly.tail.below other old
  comes := by
    intro other waiting
    rcases List.mem_append.mp waiting with child | old
    · obtain ⟨name, -, rfl⟩ := List.mem_map.mp child
      exact .inr ⟨path, name, place, rfl, found, List.mem_cons_self⟩
    · exact (orderly.pass place).comes other old

theorem nodup_paths (tour : Tour tree pending visited stops) {start : Path}
    (orderly : Orderly tree start pending visited) : (stops.map Stop.path).Nodup := by
  induction tour with
  | done => simp
  | refused _ onward inductionHypothesis
  | known _ _ onward inductionHypothesis
  | entry _ onward inductionHypothesis =>
      refine List.nodup_cons.mpr ⟨?_, inductionHypothesis orderly.tail⟩
      exact onward.not_taken_again (orderly.comes _ List.mem_cons_self) orderly.tail.below
        (List.nodup_cons.mp orderly.once).1
  | @unlisted path rest visited stops place error _ _ _ onward inductionHypothesis =>
      have next := orderly.pass place
      refine List.nodup_cons.mpr ⟨?_, inductionHypothesis next⟩
      refine onward.not_taken_again ?_ next.below (List.nodup_cons.mp orderly.once).1
      exact (orderly.comes _ List.mem_cons_self).mono fun _ seen => List.mem_cons_of_mem _ seen
  | @entered path rest visited stops place names found fresh given onward inductionHypothesis =>
      -- The path is shorter than its own entries, which are now pending.
      obtain ⟨-, rfl⟩ := FileTree.list_eq_ok_iff.mp given
      have next := orderly.enter found fresh
      refine List.nodup_cons.mpr ⟨?_, inductionHypothesis next⟩
      refine onward.not_taken_again ?_ next.below ?_
      · exact (orderly.comes _ List.mem_cons_self).mono fun _ seen => List.mem_cons_of_mem _ seen
      · intro waiting
        rcases List.mem_append.mp waiting with child | old
        · obtain ⟨name, -, same⟩ := List.mem_map.mp child
          have longer := congrArg (fun other => other.parts.length) same
          simp [Stop.path] at longer
        · exact (List.nodup_cons.mp orderly.once).1 old

/-! ## Visits -/

end Tour

/-- What a traversal reports about a stop. -/
def Stop.visit (settings : Settings) (tree : FileTree) : Stop → Except Fault (Option Visit)
  | refused path error | unlisted path _ error => .ok (some (.failed ⟨path, error.at path.toText⟩))
  | known _ _ | entered _ _ => .ok none
  | entry path => Workspace.visitFile settings tree path

/-- The visits at stops up to the first fault, and that fault. -/
def visitStops (settings : Settings) (tree : FileTree) : List Stop → List Visit × Option Fault
  | [] => ([], none)
  | stop :: rest =>
    match stop.visit settings tree with
    | .error fault => ([], some fault)
    | .ok visit =>
      (visit.toList ++ (visitStops settings tree rest).1, (visitStops settings tree rest).2)

/-- A traversal visits what its tour stops at. -/
theorem Tour.traverse_eq {tree : FileTree} {pending : List Path} {visited : List Location}
    {stops : List Stop} (tour : Tour tree pending visited stops) (settings : Settings) :
    Workspace.traverse settings tree pending visited = visitStops settings tree stops := by
  induction tour with
  | done => rw [Workspace.traverse, visitStops]
  | refused failed _ inductionHypothesis =>
      rw [Workspace.traverse, visitStops]
      split
      · next error again =>
        rw [failed] at again
        obtain rfl := Except.error.inj again
        simp only [Stop.visit, inductionHypothesis, Option.toList_some, List.singleton_append]
      · next again => simp [failed] at again
      · next again => simp [failed] at again
  | known found seen _ inductionHypothesis =>
      rw [Workspace.traverse, visitStops]
      split
      · next again => simp [found] at again
      · next place again =>
        rw [found] at again
        obtain rfl := Option.some.inj (Except.ok.inj again)
        simp only [seen, dif_pos, Stop.visit, inductionHypothesis, Option.toList_none,
          List.nil_append]
      · next again => simp [found] at again
  | entered found fresh given _ inductionHypothesis =>
      rw [Workspace.traverse, visitStops]
      split
      · next again => simp [found] at again
      · next place again =>
        rw [found] at again
        obtain rfl := Option.some.inj (Except.ok.inj again)
        simp only [fresh, dif_neg, not_false_eq_true, given, Stop.visit, inductionHypothesis,
          Option.toList_none, List.nil_append]
      · next again => simp [found] at again
  | unlisted found fresh denied _ inductionHypothesis =>
      rw [Workspace.traverse, visitStops]
      split
      · next again => simp [found] at again
      · next place again =>
        rw [found] at again
        obtain rfl := Option.some.inj (Except.ok.inj again)
        simp only [fresh, dif_neg, not_false_eq_true, denied, Stop.visit, inductionHypothesis,
          Option.toList_some, List.singleton_append]
      · next again => simp [found] at again
  | @entry path rest visited stops other _ inductionHypothesis =>
      rw [Workspace.traverse, visitStops]
      split
      · next again => simp [other] at again
      · next again => simp [other] at again
      · cases visited : Workspace.visitFile settings tree path with
        | error fault => simp only [Stop.visit, visited]
        | ok visit => simp only [Stop.visit, visited, inductionHypothesis]

end GrammarLens
