import GrammarLens.Proofs.CommaContinuation
import GrammarLens.Proofs.Ranking
import GrammarLens.Proofs.WordSearch
import Mathlib.Data.List.DropRight

/-!
Contract: what is offered for the name being typed, where nothing else asks for a completion.

Owns:
- the name before an offset, as far as the word window shows it;
- the objects that an answer offers, by the labels of its items;
- completion falls back on the objects that start with the name before the cursor, with one
  exception: a newline right before the cursor is looked past, and the name above it is completed
  where nothing is typed.

Does not own: triggers and commas, which come first.

## Why the exception is one character narrower

The newline takes up a character of the window. So the name above it shows one character less than
the window is wide, and a window of one character shows none of it.
-/

namespace GrammarLens

/-! ## The name before an offset -/

/-- The name characters right before an offset, the last `width` of them. -/
def nameBefore (text : Text) (width offset : Nat) : Text :=
  (Text.trailing isNameChar (text.take offset)).rtake width

theorem Text.trailing_rtake (belongs : Char → Bool) (text : Text) (width : Nat) :
    trailing belongs (text.rtake width) = (trailing belongs text).rtake width := by
  rw [List.rtake_eq_reverse_take_reverse, List.rtake_eq_reverse_take_reverse, trailing, trailing,
    List.reverse_reverse, List.reverse_reverse, List.take_takeWhile]

section NameBefore

variable {text : Text} {width offset : Nat}

/-- What the window shows of the name before an offset is the end of that name. -/
theorem trailing_slice_eq_nameBefore (inside : offset ≤ text.length) :
    Text.trailing isNameChar (text.slice (offset - width) offset) =
      nameBefore text width offset := by
  have shown : text.slice (offset - width) offset = (text.take offset).rtake width := by
    rw [Text.slice, List.rtake, List.length_take, Nat.min_eq_left inside]
  rw [shown, Text.trailing_rtake, nameBefore]

theorem LooksPast.nameBefore_eq_nil (past : LooksPast text width offset)
    (inside : offset ≤ text.length) : nameBefore text width offset = [] := by
  have vacant : Text.trailing isNameChar (text.take offset) = [] := by
    apply Text.trailing_eq_nil
    intro c last
    rw [← Text.before?_eq_getLast?_take inside, past.newline] at last
    obtain rfl := Option.some.inj last
    decide
  rw [nameBefore, vacant, List.rtake_nil]

/-- Where a newline is looked past, the name above it is taken for what is typed. -/
theorem LooksPast.typedRun_eq (past : LooksPast text width offset)
    (inside : offset ≤ text.length) :
    typedRun (text.slice (offset - width) offset) =
      nameBefore text (width - 1) (offset - 1) := by
  have newline := past.newline
  have reaches := past.reaches
  cases offset with
  | zero => simp [Text.before?] at newline
  | succ previous =>
      have narrower : previous + 1 - width = previous - (width - 1) := by omega
      rw [Text.slice_succ (by omega) newline, typedRun_concat_newline, narrower]
      exact trailing_slice_eq_nameBefore (by omega)

theorem LooksPast.nameAbove_ne_nil (past : LooksPast text width offset)
    (inside : offset ≤ text.length) : nameBefore text (width - 1) (offset - 1) ≠ [] := by
  obtain ⟨earlier, -, -, occupied⟩ := exists_split_past past inside
  rwa [past.typedRun_eq inside] at occupied

end NameBefore

namespace Completion

/-! ## Objects on offer -/

theorem map_label_numbered (leadingSpace : Bool) (first : Nat) (names : List Text) :
    (numbered (Item.ofName leadingSpace) first names).map Item.label = names := by
  induction names generalizing first with
  | nil => rfl
  | cons name rest inductionHypothesis =>
      rw [numbered, List.map_cons, inductionHypothesis]
      rfl

/-- Items that offer the objects of an index that start with what is typed, and nothing where
nothing is typed. -/
structure OffersObjects (attributes : AttributeIndex) (typed : Text) (items : List Item) :
    Prop where
  members : ∀ name, name ∈ items.map Item.label ↔
    typed ≠ [] ∧ name ∈ attributes.merged.keys ∧ typed <+: name
  once : attributes.merged.keys.Nodup → (items.map Item.label).Nodup

theorem offersObjects_objectItems (attributes : AttributeIndex) (typed : Text) :
    OffersObjects attributes typed (objectItems attributes typed) := by
  by_cases vacant : typed = []
  · rw [objectItems, if_pos (by simpa using vacant)]
    exact ⟨by simp [vacant], fun _ => List.nodup_nil⟩
  · rw [objectItems, if_neg (by simpa using vacant), attributeItems]
    have ranked : (rankNames (attributes.objectsStarting typed)).Perm
        (attributes.objectsStarting typed) := List.mergeSort_perm _ rankLe
    constructor
    · intro name
      rw [map_label_numbered, ranked.mem_iff, AttributeIndex.objectsStarting, List.mem_filter,
        List.isPrefixOf_iff_prefix]
      exact (and_iff_right vacant).symm
    · intro once
      rw [map_label_numbered, ranked.nodup_iff]
      exact once.filter _

/-! ## The fallback -/

/-- The text before a cursor ends in no trigger, and no comma leaves room for an attribute there. -/
def FallsBack (settings : Settings) (text : Text) (offset : Int) : Prop :=
  ∃ context, Context.build settings text (text.clampOffset offset) = .ok context ∧
    trigger? context.before = none ∧ context.continuing? = none

/-- Completion offers the objects that start with the name before the cursor. -/
def CompletesTyped (settings : Settings) (attributes : AttributeIndex) (tags : TagIndex)
    (text : Text) (width : Nat) (offset : Int) : Prop :=
  ∃ items, complete settings attributes tags text offset = .ok items ∧
    OffersObjects attributes (nameBefore text width (text.clampOffset offset)) items

section Fallback

variable {settings : Settings} {text : Text} {offset : Int} {width : Nat}

theorem complete_of_fallsBack (whole : settings.wordWindow.width? = some width)
    (falls : FallsBack settings text offset) (attributes : AttributeIndex) (tags : TagIndex) :
    complete settings attributes tags text offset =
      .ok (objectItems attributes
        (typedRun (text.slice (text.clampOffset offset - width) (text.clampOffset offset)))) := by
  obtain ⟨context, built, untriggered, ended⟩ := falls
  have reached : context.offset = text.clampOffset offset := by
    obtain ⟨before, rfl⟩ := Context.eq_ofBefore_of_build built
    rfl
  simp only [complete, built, bind, Except.bind, untriggered, ended,
    Window.start_of_width? whole, reached]
  rfl

theorem clampOffset_le_length (text : Text) (offset : Int) :
    text.clampOffset offset ≤ text.length :=
  Nat.min_le_right _ _

private theorem completesTyped_of_not_looksPast (whole : settings.wordWindow.width? = some width)
    (falls : FallsBack settings text offset)
    (plain : ¬ LooksPast text width (text.clampOffset offset)) (attributes : AttributeIndex)
    (tags : TagIndex) : CompletesTyped settings attributes tags text width offset := by
  have inside := clampOffset_le_length text offset
  refine ⟨_, complete_of_fallsBack whole falls attributes tags, ?_⟩
  rw [typedRun_slice_of_not_looksPast inside plain, trailing_slice_eq_nameBefore inside]
  exact offersObjects_objectItems attributes _

private theorem complete_of_looksPast (whole : settings.wordWindow.width? = some width)
    (falls : FallsBack settings text offset)
    (past : LooksPast text width (text.clampOffset offset)) (attributes : AttributeIndex)
    (tags : TagIndex) :
    ∃ items, complete settings attributes tags text offset = .ok items ∧
      OffersObjects attributes
        (nameBefore text (width - 1) (text.clampOffset offset - 1)) items := by
  refine ⟨_, complete_of_fallsBack whole falls attributes tags, ?_⟩
  rw [past.typedRun_eq (clampOffset_le_length text offset)]
  exact offersObjects_objectItems attributes _

end Fallback

/-- Where nothing else asks for a completion, the objects that start with the name before the cursor
are offered. This fails exactly where a newline is looked past and an object starts with the name
above it; then nothing is typed before the cursor, and the objects that start with that name are
offered. -/
theorem completesTyped_iff (settings : Settings) (attributes : AttributeIndex) (tags : TagIndex)
    (text : Text) (offset : Int) {width : Nat} (whole : settings.wordWindow.width? = some width)
    (falls : FallsBack settings text offset) :
    let cursor := text.clampOffset offset
    let above := nameBefore text (width - 1) (cursor - 1)
    (CompletesTyped settings attributes tags text width offset ↔
      ¬ (LooksPast text width cursor ∧
        ∃ object ∈ attributes.merged.keys, above <+: object)) ∧
    (LooksPast text width cursor →
      nameBefore text width cursor = [] ∧ above ≠ [] ∧
        ∃ items, complete settings attributes tags text offset = .ok items ∧
          OffersObjects attributes above items) := by
  intro cursor above
  have inside : cursor ≤ text.length := clampOffset_le_length text offset
  refine ⟨⟨?_, ?_⟩, ?_⟩
  · intro completes strays
    obtain ⟨items, answered, offers⟩ := completes
    obtain ⟨past, object, known, starts⟩ := strays
    obtain ⟨others, otherAnswered, otherOffers⟩ :=
      complete_of_looksPast whole falls past attributes tags
    obtain rfl : items = others := Except.ok.inj (answered.symm.trans otherAnswered)
    have offered := (otherOffers.members object).mpr
      ⟨past.nameAbove_ne_nil inside, known, starts⟩
    exact ((offers.members object).mp offered).1 (past.nameBefore_eq_nil inside)
  · intro straight
    by_cases past : LooksPast text width cursor
    · obtain ⟨items, answered, offers⟩ := complete_of_looksPast whole falls past attributes tags
      refine ⟨items, answered, ?_, offers.once⟩
      intro name
      -- No object starts with the name above, and before the cursor nothing is typed.
      have unoffered : name ∉ items.map Item.label := by
        intro offered
        obtain ⟨-, known, starts⟩ := (offers.members name).mp offered
        exact straight ⟨past, name, known, starts⟩
      have untyped := past.nameBefore_eq_nil inside
      exact iff_of_false unoffered fun typed => typed.1 untyped
    · exact completesTyped_of_not_looksPast whole falls past attributes tags
  · intro past
    exact ⟨past.nameBefore_eq_nil inside, past.nameAbove_ne_nil inside,
      complete_of_looksPast whole falls past attributes tags⟩

/-- An index that knows one object. -/
def singleObjectIndex : AttributeIndex :=
  AttributeIndex.empty.set ['u'] ⟨[("Foo".toList, [['a']])]⟩

theorem completesTyped_iff_secondLine :
    let text : Text := "Foo\nF".toList
    FallsBack .standard text 5 ∧ CompletesTyped .standard singleObjectIndex .empty text 50 5 ∧
      FallsBack .standard text 4 ∧
      ¬ CompletesTyped .standard singleObjectIndex .empty text 50 4 := by
  intro text
  have typing : FallsBack .standard text 5 :=
    ⟨Context.ofBefore 5 text, by decide, by decide, by decide⟩
  have idle : FallsBack .standard text 4 :=
    ⟨Context.ofBefore 4 "Foo\n".toList, by decide, by decide, by decide⟩
  have completes : CompletesTyped .standard singleObjectIndex .empty text 50 5 := by
    apply (completesTyped_iff .standard singleObjectIndex .empty text 5 rfl typing).1.mpr
    intro strays
    exact absurd strays.1.newline (by decide)
  have fails : ¬ CompletesTyped .standard singleObjectIndex .empty text 50 4 := by
    intro completed
    apply (completesTyped_iff .standard singleObjectIndex .empty text 4 rfl idle).1.mp completed
    exact ⟨⟨by decide, by decide, by decide⟩, "Foo".toList, by decide, by decide⟩
  exact ⟨typing, completes, idle, fails⟩

/-- At the start of an empty line nothing is typed, and the name that ends the line above is
completed. -/
theorem complete_strays_emptyLine :
    let text : Text := "Foo\n".toList
    FallsBack .standard text 4 ∧ nameBefore text 50 4 = [] ∧
      complete .standard singleObjectIndex .empty text 4 = .ok [Item.ofName false 1 "Foo".toList] ∧
      ¬ CompletesTyped .standard singleObjectIndex .empty text 50 4 := by
  intro text
  have idle : FallsBack .standard text 4 :=
    ⟨Context.ofBefore 4 text, by decide, by decide, by decide⟩
  have untyped : nameBefore text 50 4 = [] := by decide
  have answered : complete .standard singleObjectIndex .empty text 4 =
      .ok [Item.ofName false 1 "Foo".toList] := by
    rw [complete_of_fallsBack rfl idle]
    have shown : singleObjectIndex.objectsStarting "Foo".toList = ["Foo".toList] := by decide
    have typed : typedRun (text.slice (text.clampOffset 4 - 50) (text.clampOffset 4)) =
        "Foo".toList := by decide
    rw [typed, objectItems, if_neg (by decide), attributeItems, shown, rankNames,
      List.mergeSort_singleton]
    rfl
  refine ⟨idle, untyped, answered, ?_⟩
  intro completes
  obtain ⟨items, given, offers⟩ := completes
  obtain rfl := Except.ok.inj (answered.symm.trans given)
  exact ((offers.members "Foo".toList).mp (by decide)).1 untyped

end Completion

end GrammarLens
