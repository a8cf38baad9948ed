import GrammarLens.FileTree
import GrammarLens.Proofs.TableOrder
import Mathlib.Algebra.GroupWithZero.Nat
import Mathlib.Data.List.Basic
import Mathlib.Logic.Relation

/-!
Contract: where paths lead, and what stands in a directory.

Owns:
- splitting a text at slashes and the written form of paths;
- walks along names: how the links left over carry on, and how more links change nothing
  but the giving up;
- a path from the root resolves by a walk along its parts, unless it is too long;
- the entries of a directory: sorted, each once;
- directories that can be reached from a directory.
-/

namespace GrammarLens

/-! ## Splitting at a character -/

namespace Text

private theorem consToFirst_append (c : Char) {first : List Text} (occupied : first ≠ [])
    (second : List Text) : consToFirst c (first ++ second) = consToFirst c first ++ second := by
  cases first with
  | nil => exact absurd rfl occupied
  | cons head tail => rfl

theorem splitAtChar_ne_nil (separator : Char) (text : Text) : splitAtChar separator text ≠ [] := by
  induction text with
  | nil => simp [splitAtChar]
  | cons c rest inductionHypothesis =>
      rw [splitAtChar]
      split
      · simp
      · cases pieces : splitAtChar separator rest <;> simp [consToFirst]

/-- A separator between two texts separates their pieces. -/
theorem splitAtChar_append (separator : Char) (left right : Text) :
    splitAtChar separator (left ++ separator :: right) =
      splitAtChar separator left ++ splitAtChar separator right := by
  induction left with
  | nil => simp [splitAtChar]
  | cons c rest inductionHypothesis =>
      rw [List.cons_append, splitAtChar, splitAtChar, inductionHypothesis]
      split
      · rfl
      · exact consToFirst_append c (splitAtChar_ne_nil separator rest) _

theorem splitAtChar_eq_singleton {separator : Char} {text : Text} (absent : separator ∉ text) :
    splitAtChar separator text = [text] := by
  induction text with
  | nil => rfl
  | cons c rest inductionHypothesis =>
      obtain ⟨different, restAbsent⟩ := not_or.mp (fun held => absent (List.mem_cons.mpr held))
      rw [splitAtChar, if_neg (Ne.symm different), inductionHypothesis restAbsent]
      rfl

private theorem splitAtChar_joinWith {separator : Char} {parts : List Text} (occupied : parts ≠ [])
    (absent : ∀ part ∈ parts, separator ∉ part) :
    splitAtChar separator (joinWith [separator] parts) = parts := by
  induction parts with
  | nil => exact absurd rfl occupied
  | cons part rest inductionHypothesis =>
      have alone := splitAtChar_eq_singleton (absent part List.mem_cons_self)
      cases rest with
      | nil => exact alone
      | cons next others =>
          have tail := inductionHypothesis (by simp)
            (fun other member => absent other (List.mem_cons_of_mem _ member))
          rw [joinWith, List.append_assoc, List.singleton_append, splitAtChar_append, alone, tail]
          rfl

private theorem head?_joinWith_cons {separator part : Text} (occupied : part ≠ [])
    (rest : List Text) :
    (joinWith separator (part :: rest)).head? = part.head? := by
  cases part with
  | nil => exact absurd rfl occupied
  | cons c letters => cases rest <;> rfl

theorem head?_joinWith_ne {separator : Text} {parts : List Text} {c : Char}
    (occupied : ∀ part ∈ parts, part ≠ []) (plain : ∀ part ∈ parts, c ∉ part) :
    (joinWith separator parts).head? ≠ some c := by
  cases parts with
  | nil => simp [joinWith]
  | cons part rest =>
      rw [head?_joinWith_cons (occupied part List.mem_cons_self)]
      intro first
      exact plain part List.mem_cons_self (List.mem_of_mem_head? first)

private theorem mem_joinWith_concat {separator : Text} {parts : List Text} {last : Text} {c : Char}
    (member : c ∈ joinWith separator (parts ++ [last])) :
    c ∈ joinWith separator parts ∨ c ∈ separator ∨ c ∈ last := by
  induction parts with
  | nil => exact .inr (.inr member)
  | cons part rest inductionHypothesis =>
      cases rest with
      | nil => simpa [joinWith, or_assoc] using member
      | cons next others =>
          simp only [List.cons_append, joinWith, List.append_assoc, List.mem_append] at member ⊢
          rcases member with here | between | later
          · exact .inl (.inl here)
          · exact .inr (.inl between)
          · rcases inductionHypothesis later with inRest | outside
            · exact .inl (.inr (.inr inRest))
            · exact .inr outside

theorem not_mem_piece_of_splitAtChar {separator : Char} {text piece : Text}
    (member : piece ∈ splitAtChar separator text) : separator ∉ piece := by
  induction text generalizing piece with
  | nil =>
      rw [splitAtChar, List.mem_singleton] at member
      simp [member]
  | cons c rest inductionHypothesis =>
      rw [splitAtChar] at member
      split at member
      · rcases List.mem_cons.mp member with rfl | later
        · simp
        · exact inductionHypothesis later
      · next different =>
        cases pieces : splitAtChar separator rest with
        | nil => exact absurd pieces (splitAtChar_ne_nil separator rest)
        | cons first others =>
            rw [pieces, consToFirst] at member
            rcases List.mem_cons.mp member with rfl | later
            · have free : separator ∉ first := inductionHypothesis (by simp [pieces])
              simp [free, Ne.symm different]
            · exact inductionHypothesis (by simp [pieces, later])

/-! ## The order of texts -/

theorem le_total (left right : Text) : le left right || le right left := by
  induction left generalizing right with
  | nil => simp [le]
  | cons c rest inductionHypothesis =>
      cases right with
      | nil => simp [le]
      | cons d others =>
          by_cases same : c = d
          · simpa [le, same] using inductionHypothesis others
          · have apart : c.toNat ≠ d.toNat := fun equal => same (Char.toNat_inj.mp equal)
            simp only [le, same, Ne.symm same, if_false, Bool.or_eq_true, decide_eq_true_eq]
            omega

theorem le_trans (first second third : Text) (lower : le first second) (upper : le second third) :
    le first third := by
  induction first generalizing second third with
  | nil => rfl
  | cons c rest inductionHypothesis =>
      cases second with
      | nil => simp [le] at lower
      | cons d others =>
          cases third with
          | nil => simp [le] at upper
          | cons e last =>
              by_cases low : c = d
              · by_cases high : d = e
                · subst low high
                  simp only [le, if_true] at lower upper ⊢
                  exact inductionHypothesis others last lower upper
                · subst low
                  simp only [le, high, if_false] at upper ⊢
                  exact upper
              · by_cases high : d = e
                · subst high
                  simp only [le, low, if_false] at lower ⊢
                  exact lower
                · simp only [le, low, high, if_false, decide_eq_true_eq] at lower upper
                  have apart : c ≠ e := by
                    rintro rfl
                    omega
                  simp only [le, apart, if_false, decide_eq_true_eq]
                  omega

private theorem pairwise_sort (texts : List Text) :
    (sort texts).Pairwise fun left right => le left right :=
  List.pairwise_mergeSort le_trans le_total texts

end Text

/-! ## Walks -/

namespace FileTree

variable {tree : FileTree}

/-- What a name does that is looked up in a directory. -/
private theorem walkWith_cons_cases_of_searched {here : Location} {name : Text}
    (inside : tree.isDirectoryAt here) (occupied : name ≠ []) (searched : here ∉ tree.unsearchable) :
    (∃ error, ∀ follow rest, walkWith tree follow here (name :: rest) = .error error) ∨
    (∃ there, ∀ follow rest,
      walkWith tree follow here (name :: rest) = walkWith tree follow there rest) ∨
    (∃ start target, ∀ follow rest,
      walkWith tree follow here (name :: rest) = follow start (target ++ rest)) := by
  by_cases stays : name = ['.']
  · exact .inr (.inl ⟨here, fun follow rest => by simp [walkWith, inside, searched, stays]⟩)
  · by_cases up : name = ['.', '.']
    · exact .inr (.inl ⟨here.dropLast, fun follow rest => by simp [walkWith, inside, searched, up]⟩)
    · by_cases long : 255 < byteLength name
      · exact .inl ⟨.nameTooLong, fun follow rest => by
          simp [walkWith, inside, occupied, searched, stays, up, long]⟩
      · cases found : tree.node? (here ++ [name]) with
        | none =>
            exact .inl ⟨.missing, fun follow rest => by
              simp [walkWith, inside, occupied, searched, stays, up, long, found]⟩
        | some node =>
            cases node with
            | directory =>
                exact .inr (.inl ⟨here ++ [name], fun follow rest => by
                  simp [walkWith, inside, occupied, searched, stays, up, long, found]⟩)
            | file content =>
                exact .inr (.inl ⟨here ++ [name], fun follow rest => by
                  simp [walkWith, inside, occupied, searched, stays, up, long, found]⟩)
            | link target =>
                by_cases empty : target.isEmpty
                · exact .inl ⟨.missing, fun follow rest => by
                    simp [walkWith, inside, occupied, searched, stays, up, long, found, empty]⟩
                · exact .inr (.inr ⟨linkStart here target, Text.splitAtChar '/' target,
                    fun follow rest => by
                      simp [walkWith, inside, occupied, searched, stays, up, long, found, empty]⟩)

/-- What the first name of a walk does, whatever follows links and whatever names come after:
it ends the walk, it goes on from another place, or it hands a link's target to what follows
links. -/
theorem walkWith_cons_cases (tree : FileTree) (here : Location) (name : Text) :
    (∃ error, ∀ follow rest, walkWith tree follow here (name :: rest) = .error error) ∨
    (∃ there, ∀ follow rest,
      walkWith tree follow here (name :: rest) = walkWith tree follow there rest) ∨
    (∃ start target, ∀ follow rest,
      walkWith tree follow here (name :: rest) = follow start (target ++ rest)) := by
  by_cases inside : tree.isDirectoryAt here
  · by_cases vacant : name = []
    · exact .inr (.inl ⟨here, fun follow rest => by simp [walkWith, inside, vacant]⟩)
    · by_cases denied : here ∈ tree.unsearchable
      · exact .inl ⟨.permissionDenied, fun follow rest => by
          simp [walkWith, inside, vacant, denied]⟩
      · exact walkWith_cons_cases_of_searched inside vacant denied
  · exact .inl ⟨.notADirectory, fun follow rest => by simp [walkWith, inside]⟩

/-- Where two ways of following links agree unless the first gives up, so do their walks. -/
theorem walkWith_agree {first second : Location → List Text → Except FileError Location}
    (agree : ∀ here names, first here names = second here names ∨
      first here names = .error .tooManyLinks) (here : Location) (names : List Text) :
    walkWith tree first here names = walkWith tree second here names ∨
      walkWith tree first here names = .error .tooManyLinks := by
  induction names generalizing here with
  | nil => exact .inl rfl
  | cons name rest inductionHypothesis =>
      obtain ⟨error, ends⟩ | ⟨there, goes⟩ | ⟨start, target, hands⟩ :=
        walkWith_cons_cases tree here name
      · rw [ends first, ends second]
        exact .inl rfl
      · rw [goes first, goes second]
        exact inductionHypothesis there
      · rw [hands first, hands second]
        exact agree start (target ++ rest)

/-- With more links a walk ends as it did, unless it had given up. -/
theorem walk_agree {fewer more : Nat} (le : fewer ≤ more) (here : Location) (names : List Text) :
    tree.walk fewer here names = tree.walk more here names ∨
      tree.walk fewer here names = .error .tooManyLinks := by
  induction fewer generalizing more here names with
  | zero =>
      cases more with
      | zero => exact .inl rfl
      | succ more => exact walkWith_agree (fun _ _ => .inr rfl) here names
  | succ fewer inductionHypothesis =>
      cases more with
      | zero => omega
      | succ more =>
          exact walkWith_agree (fun place others => inductionHypothesis (by omega) place others)
            here names

private theorem walkWith_append {follow : Location → List Text → Except FileError Location}
    {here place : Location} {names : List Text}
    (arrives : walkWith tree follow here names = .ok place) :
    (∀ rest, walkWith tree follow here (names ++ rest) = walkWith tree follow place rest) ∨
    (∃ start others, follow start others = .ok place ∧
      ∀ rest, walkWith tree follow here (names ++ rest) = follow start (others ++ rest)) := by
  induction names generalizing here with
  | nil =>
      obtain rfl : here = place := Except.ok.inj arrives
      exact .inl fun _ => rfl
  | cons name more inductionHypothesis =>
      obtain ⟨error, ends⟩ | ⟨there, goes⟩ | ⟨start, target, hands⟩ :=
        walkWith_cons_cases tree here name
      · rw [ends] at arrives
        simp at arrives
      · rw [goes] at arrives
        simp only [List.cons_append, goes]
        exact inductionHypothesis arrives
      · rw [hands] at arrives
        refine .inr ⟨start, target ++ more, arrives, fun rest => ?_⟩
        rw [List.cons_append, hands, List.append_assoc]

/-- A walk that arrives goes on from where it arrived, with the links that are left. -/
theorem walk_append {links : Nat} {here place : Location} {names : List Text}
    (arrives : tree.walk links here names = .ok place) :
    ∃ left, ∀ rest, tree.walk links here (names ++ rest) = tree.walk left place rest := by
  induction links generalizing here names with
  | zero =>
      rcases walkWith_append arrives with goes | ⟨start, others, gaveUp, _⟩
      · exact ⟨0, goes⟩
      · simp at gaveUp
  | succ links inductionHypothesis =>
      rcases walkWith_append arrives with goes | ⟨start, others, follows, goes⟩
      · exact ⟨links + 1, goes⟩
      · obtain ⟨left, further⟩ := inductionHypothesis follows
        exact ⟨left, fun rest => (goes rest).trans (further rest)⟩

end FileTree

/-! ## Paths from the root -/

namespace Path

/-- Names that entries of a directory can have. -/
def IsEntryName (name : Text) : Prop := name ≠ [] ∧ '/' ∉ name ∧ '\x00' ∉ name

instance (name : Text) : Decidable (IsEntryName name) :=
  inferInstanceAs (Decidable (_ ∧ _ ∧ _))

/-- A path from the root whose parts are occupied and hold no slash. -/
structure IsRooted (path : Path) : Prop where
  anchored : path.anchor ≠ .relative
  occupied : ∀ part ∈ path.parts, part ≠ []
  plain : ∀ part ∈ path.parts, '/' ∉ part

theorem IsRooted.child {path : Path} (rooted : path.IsRooted) {name : Text}
    (proper : IsEntryName name) : (path.child name).IsRooted where
  anchored := rooted.anchored
  occupied := by
    intro part member
    rcases List.mem_append.mp member with old | new
    · exact rooted.occupied part old
    · rw [List.mem_singleton.mp new]
      exact proper.1
  plain := by
    intro part member
    rcases List.mem_append.mp member with old | new
    · exact rooted.plain part old
    · rw [List.mem_singleton.mp new]
      exact proper.2.1

/-- A path that is read from a text and seen from a directory. -/
theorem isRooted_absoluteFrom {base : Path} (rooted : base.IsRooted) (text : Text) :
    (absoluteFrom base (ofText text)).IsRooted := by
  have parts : ∀ part ∈ (ofText text).parts, part ≠ [] ∧ '/' ∉ part := by
    intro part member
    obtain ⟨piece, proper⟩ := List.mem_filter.mp member
    simp only [isPart, Bool.and_eq_true, bne_iff_ne] at proper
    exact ⟨proper.1, Text.not_mem_piece_of_splitAtChar piece⟩
  unfold absoluteFrom
  split
  · exact
      { anchored := rooted.anchored
        occupied := fun part member => (List.mem_append.mp member).elim
          (rooted.occupied part) fun new => (parts part new).1
        plain := fun part member => (List.mem_append.mp member).elim
          (rooted.plain part) fun new => (parts part new).2 }
  · next anchored =>
    exact ⟨anchored, fun part member => (parts part member).1,
      fun part member => (parts part member).2⟩

theorem child_inj {path other : Path} {name otherName : Text} :
    path.child name = other.child otherName ↔ path = other ∧ name = otherName := by
  constructor
  · intro same
    obtain ⟨anchor, parts⟩ := path
    obtain ⟨otherAnchor, otherParts⟩ := other
    obtain ⟨rfl, together⟩ := Path.mk.inj same
    obtain ⟨rfl, last⟩ := List.append_inj' together rfl
    exact ⟨rfl, (List.cons.inj last).1⟩
  · rintro ⟨rfl, rfl⟩
    rfl

@[simp]
theorem length_parts_child (path : Path) (name : Text) :
    (path.child name).parts.length = path.parts.length + 1 := by
  simp [child, extend]

@[simp]
theorem name_child (path : Path) (name : Text) : (path.child name).name = name := by
  simp [Path.name, child, extend]

/-- A path continues another one: it has the parts of that one, and perhaps more. -/
def Continues (path start : Path) : Prop := ∃ parts, path = start.extend parts

theorem Continues.refl (path : Path) : path.Continues path := ⟨[], by simp [extend]⟩

theorem Continues.child {path start : Path} (below : path.Continues start) (name : Text) :
    (path.child name).Continues start := by
  obtain ⟨parts, rfl⟩ := below
  exact ⟨parts ++ [name], by simp [Path.child, extend]⟩

theorem Continues.length_le {path start : Path} (below : path.Continues start) :
    start.parts.length ≤ path.parts.length := by
  obtain ⟨parts, rfl⟩ := below
  simp [extend]

theorem Continues.eq_of_length_le {path start : Path} (below : path.Continues start)
    (short : path.parts.length ≤ start.parts.length) : path = start := by
  obtain ⟨parts, rfl⟩ := below
  simp only [extend, List.length_append] at short
  have none : parts = [] := List.eq_nil_of_length_eq_zero (by omega)
  simp [none, extend]

/-- The pieces between the slashes of a path from the root: its parts, after empty pieces. -/
theorem splitAtChar_toText {path : Path} (rooted : path.IsRooted) :
    ∃ lead : List Text, (∀ piece ∈ lead, piece = []) ∧
      Text.splitAtChar '/' path.toText = lead ++ path.parts := by
  obtain ⟨anchor, parts⟩ := path
  have below : ∃ lead : List Text, (∀ piece ∈ lead, piece = []) ∧
      Text.splitAtChar '/' (Text.joinWith ['/'] parts) = lead ++ parts := by
    cases parts with
    | nil => exact ⟨[[]], by simp, rfl⟩
    | cons part rest =>
        refine ⟨[], by simp, ?_⟩
        exact Text.splitAtChar_joinWith (by simp) rooted.plain
  obtain ⟨lead, empty, pieces⟩ := below
  cases anchor with
  | relative => exact absurd rfl rooted.anchored
  | root =>
      refine ⟨[] :: lead, by simpa using empty, ?_⟩
      simp [toText, Text.splitAtChar, pieces]
  | doubleRoot =>
      refine ⟨[] :: [] :: lead, by simpa using empty, ?_⟩
      simp [toText, Text.splitAtChar, pieces]

/-- The written form of an entry's path holds what the directory's path and the name hold. -/
theorem mem_toText_child {path : Path} {name : Text} {c : Char} (noSlash : c ≠ '/')
    (member : c ∈ (path.child name).toText) : c ∈ path.toText ∨ c ∈ name := by
  obtain ⟨anchor, parts⟩ := path
  have below : c ∈ Text.joinWith ['/'] (parts ++ [name]) →
      c ∈ Text.joinWith ['/'] parts ∨ c ∈ name := by
    intro inside
    rcases Text.mem_joinWith_concat inside with old | slash | new
    · exact .inl old
    · exact absurd (List.mem_singleton.mp slash) noSlash
    · exact .inr new
  cases anchor with
  | relative =>
      cases parts with
      | nil => exact .inr (by simpa [child, extend, toText, Text.joinWith] using member)
      | cons part rest => exact below (by simpa [child, extend, toText] using member)
  | root =>
      simp only [child, extend, toText, List.mem_cons, noSlash, false_or] at member ⊢
      exact below member
  | doubleRoot =>
      simp only [child, extend, toText, List.mem_cons, noSlash, false_or] at member ⊢
      exact below member

private theorem head?_toText {path : Path} (anchored : path.anchor ≠ .relative) :
    path.toText.head? = some '/' := by
  unfold toText
  cases anchor : path.anchor with
  | relative => exact absurd anchor anchored
  | root => rfl
  | doubleRoot => rfl

end Path

namespace FileTree

variable {tree : FileTree}

/-- Empty pieces stay at the root. -/
theorem walk_lead {lead : List Text} (empty : ∀ piece ∈ lead, piece = []) (links : Nat)
    (names : List Text) : tree.walk links [] (lead ++ names) = tree.walk links [] names := by
  induction lead with
  | nil => rfl
  | cons piece rest inductionHypothesis =>
      obtain rfl := empty piece List.mem_cons_self
      have stays : tree.walk links [] ([] :: (rest ++ names)) =
          tree.walk links [] (rest ++ names) := by
        cases links <;> simp [walk, walkWith, isDirectoryAt, node?]
      rw [List.cons_append, stays]
      exact inductionHypothesis fun other member => empty other (List.mem_cons_of_mem _ member)

/-- A path from the root resolves by a walk along its parts, unless it is too long. -/
theorem resolve_rooted {path : Path} (rooted : path.IsRooted) :
    tree.resolve path.toText =
      if 4095 < byteLength path.toText then .error .nameTooLong
      else tree.walk linkLimit [] path.parts := by
  have head := Path.head?_toText rooted.anchored
  have occupied : path.toText.isEmpty = false := by
    cases written : path.toText with
    | nil => simp [written] at head
    | cons c rest => rfl
  obtain ⟨lead, empty, pieces⟩ := Path.splitAtChar_toText rooted
  unfold resolve
  rw [occupied, linkStart, if_pos head, pieces, walk_lead empty]
  simp

/-- A path that the system refuses to resolve for its own sake: it passes through too many links
or is too long. -/
def ExceedsLimit (tree : FileTree) (path : Path) : Prop :=
  tree.resolve path.toText = .error .tooManyLinks ∨ 4095 < byteLength path.toText

/-- An entry of a directory resolves from where the directory lies, if its path is not too
long. -/
theorem resolve_child {path : Path} (rooted : path.IsRooted) {name : Text}
    (proper : Path.IsEntryName name) {place : Location} (arrives : tree.resolve path.toText = .ok place)
    (short : ¬ 4095 < byteLength (path.child name).toText) :
    ∃ left, tree.resolve (path.child name).toText = tree.walk left place [name] := by
  rw [resolve_rooted rooted] at arrives
  split at arrives
  · simp at arrives
  · obtain ⟨left, goes⟩ := walk_append arrives
    refine ⟨left, ?_⟩
    rw [resolve_rooted (rooted.child proper), if_neg short]
    exact goes [name]

theorem directory?_eq_some_iff {text : Text} {place : Location} :
    tree.directory? text = .ok (some place) ↔
      '\x00' ∉ text ∧ tree.resolve text = .ok place ∧ tree.isDirectoryAt place := by
  unfold directory? locate?
  by_cases held : '\x00' ∈ text
  · simp [held, Except.map]
  · cases resolved : tree.resolve text with
    | ok found =>
        simp [held, Except.map, Option.filter_eq_some_iff]
    | error error =>
        by_cases absence : error.isAbsence
        · simp [held, absence, Except.map]
        · simp [held, absence, Except.map]

theorem null_not_mem_child {path : Path} {name : Text} (proper : Path.IsEntryName name)
    {place : Location} (found : tree.directory? path.toText = .ok (some place)) :
    '\x00' ∉ (path.child name).toText := by
  intro held
  rcases Path.mem_toText_child (by decide) held with inPath | inName
  · exact (directory?_eq_some_iff.mp found).1 inPath
  · exact proper.2.2 inName

/-! ## Entries -/

/-- The last name of a location, if the location lies right below a place. -/
def nameBelow? (place other : Location) : Option Text :=
  if other.dropLast = place then other.getLast? else none

private theorem nameBelow?_eq_some_iff {place other : Location} {name : Text} :
    nameBelow? place other = some name ↔ other = place ++ [name] := by
  unfold nameBelow?
  constructor
  · intro found
    split at found
    · next below =>
      obtain ⟨front, rfl⟩ := List.getLast?_eq_some_iff.mp found
      rw [List.dropLast_concat] at below
      rw [below]
    · simp at found
  · rintro rfl
    simp

theorem children_eq (place : Location) :
    tree.children place =
      Text.sort (distinct (tree.nodes.keys.filterMap (nameBelow? place))) := rfl

theorem mem_children {place : Location} {name : Text} :
    name ∈ tree.children place ↔ place ++ [name] ∈ tree.nodes.keys := by
  rw [children_eq, Text.sort, List.mem_mergeSort, mem_distinct, List.mem_filterMap]
  simp only [nameBelow?_eq_some_iff]
  exact ⟨fun ⟨_, member, same⟩ => same ▸ member, fun member => ⟨_, member, rfl⟩⟩

/-- The entries of a directory are sorted. -/
theorem pairwise_children (place : Location) :
    (tree.children place).Pairwise fun left right => Text.le left right :=
  Text.pairwise_sort _

theorem nodup_children (place : Location) : (tree.children place).Nodup :=
  (List.mergeSort_perm _ _).nodup_iff.mpr (nodup_distinct _)

theorem list_eq_ok_iff {place : Location} {names : List Text} :
    tree.list place = .ok names ↔ place ∉ tree.unreadable ∧ names = tree.children place := by
  unfold list
  by_cases denied : place ∈ tree.unreadable
  · simp [denied]
  · simp [denied, eq_comm]

theorem list_eq_error_iff {place : Location} {error : FileError} :
    tree.list place = .error error ↔ place ∈ tree.unreadable ∧ error = .permissionDenied := by
  unfold list
  by_cases denied : place ∈ tree.unreadable
  · simp [denied, eq_comm]
  · simp [denied]

/-- Nodes that are held in order need no sorting. -/
theorem list_of_sorted {place : Location} {names : List Text} (granted : place ∉ tree.unreadable)
    (held : distinct (tree.nodes.keys.filterMap (nameBelow? place)) = names)
    (sorted : names.Pairwise fun left right => Text.le left right) :
    tree.list place = .ok names := by
  refine list_eq_ok_iff.mpr ⟨granted, ?_⟩
  rw [children_eq, held]
  exact (List.mergeSort_of_pairwise sorted).symm

private theorem length_children_le (place : Location) :
    (tree.children place).length ≤ tree.nodes.keys.countP fun other => other.dropLast = place := by
  rw [children_eq, Text.sort, List.length_mergeSort]
  calc (distinct (tree.nodes.keys.filterMap (nameBelow? place))).length
      ≤ (tree.nodes.keys.filterMap (nameBelow? place)).length := length_distinct_le _
    _ = tree.nodes.keys.countP fun other => (nameBelow? place other).isSome :=
        List.length_filterMap_eq_countP
    _ ≤ tree.nodes.keys.countP fun other => other.dropLast = place := by
        apply List.countP_mono_left
        intro other _ found
        unfold nameBelow? at found
        split at found
        · next below => simpa using below
        · simp at found

/-- A node that lies below one place does not lie below another one. -/
theorem countP_dropLast_cons {place : Location} {others : List Location} (fresh : place ∉ others)
    (nodes : List Location) :
    nodes.countP (fun node => node.dropLast ∈ place :: others) =
      nodes.countP (fun node => node.dropLast = place) +
        nodes.countP fun node => node.dropLast ∈ others := by
  induction nodes with
  | nil => rfl
  | cons node rest inductionHypothesis =>
      rw [List.countP_cons, List.countP_cons, List.countP_cons, inductionHypothesis]
      by_cases here : node.dropLast = place
      · simp [here, fresh]
        omega
      · simp [here]
        omega

private theorem sum_length_children_le_countP {places : List Location} (once : places.Nodup) :
    (places.map fun place => (tree.children place).length).sum ≤
      tree.nodes.keys.countP fun node => node.dropLast ∈ places := by
  induction places with
  | nil => simp
  | cons place rest inductionHypothesis =>
      obtain ⟨fresh, restOnce⟩ := List.nodup_cons.mp once
      rw [List.map_cons, List.sum_cons, countP_dropLast_cons fresh]
      exact Nat.add_le_add (length_children_le place) (inductionHypothesis restOnce)

/-- Directories that are listed once each have together no more entries than there are nodes. -/
theorem sum_length_children_le {places : List Location} (once : places.Nodup) :
    (places.map fun place => (tree.children place).length).sum ≤ tree.nodes.size := by
  have size : tree.nodes.keys.length = tree.nodes.size := List.length_map _
  rw [← size]
  exact Nat.le_trans (sum_length_children_le_countP once) List.countP_le_length

/-! ## Reaching directories -/

/-- An entry of a directory leads to a directory: it is one, or a link that ends at one after
however many further links. -/
def EntryLeadsTo (tree : FileTree) (place : Location) (name : Text) (target : Location) : Prop :=
  place ++ [name] ∈ tree.nodes.keys ∧ (∃ links, tree.walk links place [name] = .ok target) ∧
    tree.isDirectoryAt target

/-- Some entry of a directory leads to a directory. -/
def LeadsTo (tree : FileTree) (place target : Location) : Prop :=
  ∃ name, tree.EntryLeadsTo place name target

/-- A directory can be reached from another one through directories and links to directories. -/
def Reaches (tree : FileTree) : Location → Location → Prop :=
  Relation.ReflTransGen tree.LeadsTo

/-- An entry whose path is found to be a directory leads there. -/
theorem entryLeadsTo_of_child {path : Path} (rooted : path.IsRooted) {name : Text}
    (proper : Path.IsEntryName name) {place target : Location}
    (present : place ++ [name] ∈ tree.nodes.keys)
    (found : tree.directory? path.toText = .ok (some place))
    (below : tree.directory? (path.child name).toText = .ok (some target)) :
    tree.EntryLeadsTo place name target := by
  obtain ⟨-, resolved, -⟩ := directory?_eq_some_iff.mp found
  obtain ⟨-, resolvedChild, directory⟩ := directory?_eq_some_iff.mp below
  have short : ¬ 4095 < byteLength (path.child name).toText := by
    intro long
    rw [resolve_rooted (rooted.child proper), if_pos long] at resolvedChild
    simp at resolvedChild
  obtain ⟨left, walks⟩ := resolve_child rooted proper resolved short
  exact ⟨present, ⟨left, walks.symm.trans resolvedChild⟩, directory⟩

/-- An entry that leads to a directory is found to be one, unless its path exceeds a limit. -/
theorem directory?_child_of_entryLeadsTo {path : Path} (rooted : path.IsRooted) {name : Text}
    (proper : Path.IsEntryName name) {place target : Location}
    (found : tree.directory? path.toText = .ok (some place))
    (leads : tree.EntryLeadsTo place name target) :
    tree.directory? (path.child name).toText = .ok (some target) ∨
      tree.ExceedsLimit (path.child name) := by
  obtain ⟨-, resolved, -⟩ := directory?_eq_some_iff.mp found
  obtain ⟨-, ⟨links, arrives⟩, directory⟩ := leads
  by_cases long : 4095 < byteLength (path.child name).toText
  · exact .inr (.inr long)
  · obtain ⟨left, walks⟩ := resolve_child rooted proper resolved long
    have childNoNull := null_not_mem_child proper found
    -- The links that the path leaves over are fewer than needed, or they are enough.
    have enough : tree.walk left place [name] = .ok target ∨
        tree.walk left place [name] = .error .tooManyLinks := by
      rcases Nat.le_total left links with fewer | more
      · rw [← arrives]
        exact walk_agree fewer place [name]
      · rcases walk_agree more place [name] with same | gaveUp
        · exact .inl (same.symm.trans arrives)
        · rw [arrives] at gaveUp
          simp at gaveUp
    rcases enough with reached | gaveUp
    · exact .inl (directory?_eq_some_iff.mpr ⟨childNoNull, walks.trans reached, directory⟩)
    · exact .inr (.inl (walks.trans gaveUp))

end FileTree

end GrammarLens
