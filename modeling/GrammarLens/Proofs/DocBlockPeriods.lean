import GrammarLens.Proofs.DocBlockSpans
import GrammarLens.Proofs.Tokenization

/-!
Contract: the period that closes a documentation block.

Owns:
- the period behind the closing delimiter of a block;
- a block is read exactly if a period stands behind one of the delimiters after its opening;
- what follows that period makes no difference: a dotted reference behind a block closes it.

Does not own: which of several closing delimiters a block is read up to.
-/

namespace GrammarLens.DocBlock

/-! ## Periods -/

/-- Behind the delimiter at `closing` stand layout, an annotation or a name, layout, and then the
period at `place`. -/
structure PeriodBehind (text : Text) (closing place : Nat) : Prop where
  reached : closing + 3 ≤ place
  parts : ∃ layout annotated gap, text.slice (closing + 3) place = layout ++ (annotated ++ gap) ∧
    (∀ c ∈ layout, isLayout c) ∧ IsAnnotation annotated ∧ ∀ c ∈ gap, isLayout c
  period : text[place]? = some '.'

section Periods

variable {text : Text} {start opening closing place : Nat}

theorem isEnding_drop_iff :
    IsEnding (text.drop (closing + 3)) ↔ ∃ place, PeriodBehind text closing place := by
  constructor
  · rintro ⟨layout, annotated, gap, rest, split, whole, annotation, blank⟩
    have grouped : text.drop (closing + 3) = (layout ++ (annotated ++ gap)) ++ '.' :: rest := by
      rw [split]
      simp
    refine ⟨closing + 3 + (layout ++ (annotated ++ gap)).length, Nat.le_add_right _ _,
      ⟨layout, annotated, gap, ?_, whole, annotation, blank⟩, ?_⟩
    · rw [Text.slice, ← List.take_drop, grouped, List.take_left]
    · rw [← List.getElem?_drop, grouped, List.getElem?_append_right (Nat.le_refl _), Nat.sub_self,
        List.getElem?_cons_zero]
  · rintro ⟨place, reached, ⟨layout, annotated, gap, between, whole, annotation, blank⟩, period⟩
    obtain ⟨rest, behind⟩ := List.head?_eq_some_iff.mp (List.head?_drop.trans period)
    refine ⟨layout, annotated, gap, rest, ?_, whole, annotation, blank⟩
    rw [← Text.slice_append_drop reached, between, behind, List.append_assoc, List.append_assoc]

/-! ## Blocks that are read -/

private theorem exists_isLeastClosing (closes : Closes text opening closing) :
    ∃ least, IsLeastClosing text opening least := by
  obtain ⟨least, first⟩ := exists_isFirstFrom (Nat.zero_le closing) closes
  exact ⟨least, first.here, fun earlier => first.first earlier (Nat.zero_le earlier)⟩

/-- A block is found exactly if it opens in time and a period stands behind some delimiter after
its opening. -/
theorem exists_find?_iff :
    (∃ doc, find? text start = some doc) ↔
      ∃ opening closing place, Opens text start opening ∧ opening + 3 ≤ closing ∧
        DelimiterAt text closing ∧ PeriodBehind text closing place := by
  simp only [find?_eq_some_iff]
  constructor
  · rintro ⟨doc, opening, closing, opens, closed, -⟩
    obtain ⟨place, period⟩ := isEnding_drop_iff.mp closed.ending
    exact ⟨opening, closing, place, opens, closed.behind, closed.delimiter, period⟩
  · rintro ⟨opening, closing, place, opens, behind, delimiter, period⟩
    have closes : Closes text opening closing :=
      ⟨behind, delimiter, isEnding_drop_iff.mpr ⟨place, period⟩⟩
    obtain ⟨least, closed⟩ := exists_isLeastClosing closes
    exact ⟨_, opening, least, opens, closed, isTrimmed_trim _⟩

end Periods

/-! ## What follows the period -/

section Agreement

variable {text other : Text} {start opening closing place shared : Nat}
  (same : text.take shared = other.take shared)

include same

theorem getElem?_of_take_eq (inside : place < shared) : text[place]? = other[place]? := by
  rw [← List.getElem?_take_of_lt inside, same, List.getElem?_take_of_lt inside]

theorem delimiterAt_of_take_eq (inside : place + 3 ≤ shared) :
    DelimiterAt text place ↔ DelimiterAt other place := by
  rw [delimiterAt_iff, delimiterAt_iff]
  apply forall₂_congr
  intro step small
  rw [getElem?_of_take_eq same (by omega)]

private theorem slice_of_take_eq (inside : place ≤ shared) :
    text.slice start place = other.slice start place := by
  rw [Text.slice, Text.slice, ← Nat.min_eq_left inside, ← List.take_take, same, List.take_take]

theorem Opens.of_take_eq (opens : Opens text start opening) (inside : opening + 3 ≤ shared) :
    Opens other start opening := by
  refine ⟨⟨opens.first.reached, (delimiterAt_of_take_eq same inside).mp opens.first.here, ?_⟩, ?_⟩
  · intro earlier reached before delimiter
    exact opens.first.first earlier reached before
      ((delimiterAt_of_take_eq same (by omega)).mpr delimiter)
  · intro earlier reached before alone
    apply opens.running earlier reached before
    rw [StandsAlone, getElem?_of_take_eq same (by omega), getElem?_of_take_eq same (by omega)]
    exact alone

theorem PeriodBehind.of_take_eq (period : PeriodBehind text closing place)
    (inside : place < shared) : PeriodBehind other closing place where
  reached := period.reached
  parts := by
    rw [← slice_of_take_eq same (Nat.le_of_lt inside)]
    exact period.parts
  period := by
    rw [← getElem?_of_take_eq same inside]
    exact period.period

end Agreement

/-- A dotted reference behind a block has a period that closes it. -/
theorem exists_periodBehind_of_isDotted {text layout reference rest : Text} {closing : Nat}
    (split : text.drop (closing + 3) = layout ++ (reference ++ rest))
    (whole : ∀ c ∈ layout, isLayout c) (dotted : IsDotted reference) (parted : '.' ∈ reference) :
    ∃ place, PeriodBehind text closing place := by
  apply isEnding_drop_iff.mp
  cases dotted with
  | run isName => exact absurd parted isName.plain.1
  | @dot name others isName dotted =>
      refine ⟨layout, name, [], others ++ rest, ?_, whole, .inr isName.2, List.forall_mem_nil _⟩
      rw [split, List.append_assoc]
      rfl

/-- The documentation that is found stands in the first block, up to its least closing, with a
period behind it. Any period will do there, whatever follows it: the text may go on from it in any
way, and a block is found nevertheless, also where the period is the dot of a reference. -/
theorem find_closed_by_any_period (text : Text) (start : Nat) :
    (∀ doc, find? text start = some doc ↔
      ∃ opening closing place, Opens text start opening ∧ IsLeastClosing text opening closing ∧
        IsTrimmed (text.slice (opening + 3) closing) doc ∧ PeriodBehind text closing place) ∧
    (∀ opening closing place, Opens text start opening → opening + 3 ≤ closing →
      DelimiterAt text closing → PeriodBehind text closing place →
      ∀ rest, ∃ doc, find? (text.take (place + 1) ++ rest) start = some doc) ∧
    ∀ opening closing layout reference rest, Opens text start opening → opening + 3 ≤ closing →
      DelimiterAt text closing → text.drop (closing + 3) = layout ++ (reference ++ rest) →
      (∀ c ∈ layout, isLayout c) → IsDotted reference → '.' ∈ reference →
      ∃ doc, find? text start = some doc := by
  refine ⟨?_, ?_, ?_⟩
  · intro doc
    rw [find?_eq_some_iff]
    constructor
    · rintro ⟨opening, closing, opens, closed, trimmed⟩
      obtain ⟨place, period⟩ := isEnding_drop_iff.mp closed.ending
      exact ⟨opening, closing, place, opens, closed, trimmed, period⟩
    · rintro ⟨opening, closing, -, opens, closed, trimmed, -⟩
      exact ⟨opening, closing, opens, closed, trimmed⟩
  · intro opening closing place opens behind delimiter period rest
    have reached := period.reached
    have inside : place < text.length := (List.getElem?_eq_some_iff.mp period.period).1
    have same : text.take (place + 1) = (text.take (place + 1) ++ rest).take (place + 1) := by
      rw [List.take_append_of_le_length (by rw [List.length_take]; omega), List.take_take,
        Nat.min_self]
    exact exists_find?_iff.mpr ⟨opening, closing, place, opens.of_take_eq same (by omega), behind,
      (delimiterAt_of_take_eq same (by omega)).mp delimiter,
      period.of_take_eq same (Nat.lt_succ_self place)⟩
  · intro opening closing layout reference rest opens behind delimiter split whole dotted parted
    obtain ⟨place, period⟩ := exists_periodBehind_of_isDotted split whole dotted parted
    exact exists_find?_iff.mpr ⟨opening, closing, place, opens, behind, delimiter, period⟩

/-- A definition with a block, and behind it a reference in place of a period. -/
def referenceBehind : Text := "X := \"\"\"d\"\"\" A.B".toList

theorem find_closed_by_any_period_referenceBehind :
    Opens referenceBehind 4 5 ∧ PeriodBehind referenceBehind 9 14 ∧
      (∀ rest, ∃ doc, find? (referenceBehind.take 15 ++ rest) 4 = some doc) ∧
      ∃ doc, find? referenceBehind 4 = some doc := by
  have closed := find_closed_by_any_period referenceBehind 4
  have space : referenceBehind[4]? = some ' ' := by decide
  have opens : Opens referenceBehind 4 5 := by
    refine ⟨⟨by decide, rfl, ?_⟩, ?_⟩
    · intro earlier reached before delimiter
      have here : earlier = 4 := Nat.le_antisymm (Nat.le_of_lt_succ before) reached
      have quote := delimiterAt_iff.mp delimiter 0 (by decide)
      rw [here, Nat.add_zero, space] at quote
      exact absurd quote (by decide)
    · intro place reached before alone
      have here : place = 4 := Nat.le_antisymm (Nat.le_of_lt_succ before) reached
      have period := alone.1
      rw [here, space] at period
      exact absurd period (by decide)
  have named : IsName "A".toList := by decide
  have layout : ∀ c ∈ [' '], isLayout c := List.forall_mem_singleton.mpr rfl
  have period : PeriodBehind referenceBehind 9 14 :=
    ⟨by decide, ⟨[' '], "A".toList, [], by decide, layout, .inr named.2, List.forall_mem_nil _⟩,
      by decide⟩
  have dotted : IsDotted "A.B".toList := .dot named (.run (by decide : IsName "B".toList))
  exact ⟨opens, period, closed.2.1 5 9 14 opens (by decide) rfl period,
    closed.2.2 5 9 [' '] "A.B".toList [] opens (by decide) rfl rfl layout dotted (by decide)⟩

/-- A block is found although no period of the text stands alone. -/
theorem find_reads_referenceBehind :
    find? referenceBehind 4 = some "d".toList ∧ ∀ place, ¬ StandsAlone referenceBehind place := by
  refine ⟨by decide +kernel, ?_⟩
  intro place alone
  have inside : place < referenceBehind.length := (List.getElem?_eq_some_iff.mp alone.1).1
  have only : ∀ index < referenceBehind.length,
      referenceBehind[index]? = some '.' → index = 14 := by decide +kernel
  obtain rfl := only place inside alone.1
  exact absurd (alone.2 'B' rfl) (by decide)

end GrammarLens.DocBlock
