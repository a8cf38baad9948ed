import GrammarLens.Proofs.ObjectCompletion

/-!
Contract: the keys by which an editor sorts offered names.

Owns:
- texts of digits: of two with the same length, the one with the lower value comes first;
- keys, which are the digits of a rank after zeros up to four places: when the key of a rank comes
  before that of a higher rank;
- the keys of offered names follow their ranks as long as there are at most 9999 of them. The item of
  a new line comes before them all.

Does not own: the ranking of names.

## Why the order breaks off

The keys of the ranks below ten thousand have four places. From there on they have more, and texts
are compared from the left: the key of rank 10000 stands between those of the ranks 1000 and 1001.
-/

namespace GrammarLens

/-- A text comes before a longer one exactly if it starts it or comes before its start. -/
theorem Text.before_iff_take {left right : Text} (short : left.length < right.length) :
    left.Before right ↔
      left = right.take left.length ∨ left.Before (right.take left.length) := by
  induction left generalizing right with
  | nil =>
      cases right with
      | nil => simp at short
      | cons d others => simp [Before]
  | cons c rest inductionHypothesis =>
      cases right with
      | nil => simp at short
      | cons d others =>
          have shortRest : rest.length < others.length := Nat.lt_of_succ_lt_succ short
          rw [List.length_cons, List.take_succ_cons, before_cons_iff, before_cons_iff,
            inductionHypothesis shortRest, List.cons.injEq]
          by_cases same : c = d
          · simp [same]
          · simp [same]

/-! ## Texts of digits -/

section Digits

variable {left right : Text} (leftDigits : ∀ c ∈ left, c.isDigit)
  (rightDigits : ∀ c ∈ right, c.isDigit)

theorem digits_value_cons (c : Char) (rest : Text) :
    Nat.ofDigitChars 10 (c :: rest) 0 =
      10 ^ rest.length * (c.toNat - 48) + Nat.ofDigitChars 10 rest 0 := by
  rw [Nat.ofDigitChars_cons, Nat.ofDigitChars_eq_ofDigitChars_zero]
  simp

theorem digit_value {c : Char} (digit : c.isDigit) : 48 ≤ c.toNat ∧ c.toNat ≤ 57 := by
  have bounds : 48 ≤ c.val ∧ c.val ≤ 57 := by simpa [Char.isDigit] using digit
  exact bounds

include leftDigits in
theorem digits_value_lt : Nat.ofDigitChars 10 left 0 < 10 ^ left.length := by
  induction left with
  | nil => simp
  | cons c rest inductionHypothesis =>
      have digit := leftDigits c List.mem_cons_self
      have below := inductionHypothesis fun d member => leftDigits d (List.mem_cons_of_mem c member)
      rw [digits_value_cons, List.length_cons, Nat.pow_succ]
      have value : c.toNat - 48 ≤ 9 := by
        have bounds := digit_value digit
        omega
      have scaled := Nat.mul_le_mul_left (10 ^ rest.length) value
      omega

include leftDigits rightDigits

/-- Texts of digits with the same length come in the order of their values. -/
theorem before_iff_value_lt (same : left.length = right.length) :
    left.Before right ↔ Nat.ofDigitChars 10 left 0 < Nat.ofDigitChars 10 right 0 := by
  induction left generalizing right with
  | nil =>
      have vacant : right = [] := List.eq_nil_of_length_eq_zero same.symm
      simp [vacant, Text.not_before_nil]
  | cons c rest inductionHypothesis =>
      cases right with
      | nil => simp at same
      | cons d others =>
          have sameRest : rest.length = others.length := Nat.succ.inj same
          have restDigits := (List.forall_mem_cons.mp leftDigits).2
          have othersDigits := (List.forall_mem_cons.mp rightDigits).2
          have first := digit_value (leftDigits c List.mem_cons_self)
          have second := digit_value (rightDigits d List.mem_cons_self)
          have restBelow := digits_value_lt restDigits
          have othersBelow := digits_value_lt othersDigits
          rw [Text.before_cons_iff, inductionHypothesis restDigits othersDigits sameRest,
            digits_value_cons, digits_value_cons, sameRest]
          rw [sameRest] at restBelow
          -- The first digit weighs more than all that follow.
          rcases Nat.lt_trichotomy c.toNat d.toNat with lower | equal | upper
          · have scaled : 10 ^ others.length * (c.toNat - 48 + 1) ≤
                10 ^ others.length * (d.toNat - 48) := Nat.mul_le_mul_left _ (by omega)
            rw [Nat.mul_succ] at scaled
            simp only [lower, true_or, true_iff]
            omega
          · obtain rfl := Char.toNat_inj.mp equal
            simp
          · have scaled : 10 ^ others.length * (d.toNat - 48 + 1) ≤
                10 ^ others.length * (c.toNat - 48) := Nat.mul_le_mul_left _ (by omega)
            rw [Nat.mul_succ] at scaled
            have different : c ≠ d := by
              intro equal
              rw [equal] at upper
              omega
            simp only [different, false_and, or_false]
            omega

/-- A shorter text of digits comes before a longer one exactly if its value is at most that of as
many digits of the longer one. -/
theorem before_iff_of_shorter (short : left.length < right.length) :
    left.Before right ↔
      Nat.ofDigitChars 10 left 0 ≤
        Nat.ofDigitChars 10 right 0 / 10 ^ (right.length - left.length) := by
  have leading : ∀ c ∈ right.take left.length, c.isDigit := fun c member =>
    rightDigits c (List.mem_of_mem_take member)
  have trailing : ∀ c ∈ right.drop left.length, c.isDigit := fun c member =>
    rightDigits c (List.mem_of_mem_drop member)
  have sameLength : (right.take left.length).length = left.length := by
    rw [List.length_take]
    omega
  have value : Nat.ofDigitChars 10 right 0 / 10 ^ (right.length - left.length) =
      Nat.ofDigitChars 10 (right.take left.length) 0 := by
    have rest := digits_value_lt trailing
    rw [List.length_drop] at rest
    calc Nat.ofDigitChars 10 right 0 / 10 ^ (right.length - left.length)
      _ = Nat.ofDigitChars 10 (right.take left.length ++ right.drop left.length) 0 /
            10 ^ (right.length - left.length) := by rw [List.take_append_drop]
      _ = (10 ^ (right.length - left.length) * Nat.ofDigitChars 10 (right.take left.length) 0 +
            Nat.ofDigitChars 10 (right.drop left.length) 0) /
            10 ^ (right.length - left.length) := by
          rw [Nat.ofDigitChars_append, Nat.ofDigitChars_eq_ofDigitChars_zero, List.length_drop]
      _ = _ := by
          rw [Nat.mul_add_div (Nat.pow_pos (by decide)), Nat.div_eq_of_lt rest, Nat.add_zero]
  rw [value, ← Nat.not_lt, ← before_iff_value_lt leading leftDigits sameLength,
    ← Text.le_iff_not_before, Text.le_iff]
  exact Text.before_iff_take short

end Digits

/-! ## Keys -/

namespace Completion

private theorem sortKey_digits (rank : Nat) : ∀ c ∈ sortKey rank, c.isDigit := by
  intro c member
  cases List.mem_append.mp member with
  | inl zero =>
      rw [List.eq_of_mem_replicate zero]
      rfl
  | inr digit => exact Nat.isDigit_of_mem_toDigits (by decide) (by decide) digit

private theorem sortKey_value (rank : Nat) : Nat.ofDigitChars 10 (sortKey rank) 0 = rank := by
  show Nat.ofDigitChars 10 (List.replicate _ '0' ++ Nat.toDigits 10 rank) 0 = rank
  rw [Nat.ofDigitChars_append, Nat.ofDigitChars_replicate_zero, Nat.mul_zero,
    Nat.ofDigitChars_ten_toDigits]

theorem length_sortKey (rank : Nat) :
    (sortKey rank).length = max 4 (Nat.toDigits 10 rank).length := by
  show (List.replicate (4 - (Nat.toDigits 10 rank).length) '0' ++ Nat.toDigits 10 rank).length = _
  rw [List.length_append, List.length_replicate]
  omega

private theorem length_sortKey_of_lt {rank : Nat} (low : rank < 10 ^ 4) :
    (sortKey rank).length = 4 := by
  have few := (Nat.length_toDigits_le_iff (by decide : 1 < 10) (by decide : 0 < 4)).mpr low
  rw [length_sortKey]
  omega

private theorem length_sortKey_le {lower upper : Nat} (below : lower ≤ upper) :
    (sortKey lower).length ≤ (sortKey upper).length := by
  have base : 1 < 10 := by decide
  have own := (Nat.length_toDigits_le_iff base Nat.length_toDigits_pos).mp
    (Nat.le_refl (Nat.toDigits 10 upper).length)
  have fewer := (Nat.length_toDigits_le_iff base (@Nat.length_toDigits_pos 10 upper)).mpr
    (Nat.lt_of_le_of_lt below own)
  rw [length_sortKey, length_sortKey]
  omega

/-- The key of a rank comes before the key of a higher one exactly if the rank is at most the
number that the higher one starts with, cut to the places of the first key. -/
theorem sortKey_before_iff {lower upper : Nat} (below : lower < upper) :
    Text.Before (sortKey lower) (sortKey upper) ↔
      lower ≤ upper / 10 ^ ((sortKey upper).length - (sortKey lower).length) := by
  rcases Nat.lt_or_eq_of_le (length_sortKey_le (Nat.le_of_lt below)) with shorter | same
  · rw [before_iff_of_shorter (sortKey_digits lower) (sortKey_digits upper) shorter, sortKey_value,
      sortKey_value]
  · rw [before_iff_value_lt (sortKey_digits lower) (sortKey_digits upper) same, sortKey_value,
      sortKey_value, same, Nat.sub_self, Nat.pow_zero, Nat.div_one]
    omega

private theorem sortKey_before_of_lt {lower upper : Nat} (below : lower < upper)
    (low : upper < 10 ^ 4) :
    Text.Before (sortKey lower) (sortKey upper) := by
  rw [sortKey_before_iff below, length_sortKey_of_lt low,
    length_sortKey_of_lt (Nat.lt_trans below low), Nat.sub_self, Nat.pow_zero, Nat.div_one]
  exact Nat.le_of_lt below

/-! ## Keys of offered names -/

private theorem map_sortKey_numbered (leadingSpace : Bool) (first : Nat) (names : List Text) :
    (numbered (Item.ofName leadingSpace) first names).map Item.sortKey =
      (List.range' first names.length).map fun rank : Nat => sortKey rank := by
  induction names generalizing first with
  | nil => rfl
  | cons name rest inductionHypothesis =>
      rw [numbered, List.map_cons, inductionHypothesis, List.length_cons, List.range'_succ,
        List.map_cons]
      rfl

theorem map_sortKey_attributeItems (names : List Text) (leadingSpace : Bool) :
    (attributeItems names leadingSpace).map Item.sortKey =
      (List.range' 1 names.length).map fun rank : Nat => sortKey rank := by
  rw [attributeItems, map_sortKey_numbered, rankNames, List.length_mergeSort]

/-- Ranks start at one. -/
theorem sortKey_of_getElem? {names : List Text} {leadingSpace : Bool} {index : Nat} {item : Item}
    (found : (attributeItems names leadingSpace)[index]? = some item) :
    item.sortKey = sortKey (index + 1 : Nat) := by
  have key : ((attributeItems names leadingSpace).map Item.sortKey)[index]? =
      some item.sortKey := by
    rw [List.getElem?_map, found]
    rfl
  rw [map_sortKey_attributeItems, List.getElem?_map, Option.map_eq_some_iff] at key
  obtain ⟨rank, ranked, same⟩ := key
  have inRange := List.getElem?_eq_some_iff.mp ranked
  rw [← same, ← inRange.2, List.getElem_range', Nat.one_mul, Nat.add_comm]

/-- The keys of the ranks from one on rise up to 9999, and no further. -/
theorem pairwise_sortKeys_iff (count : Nat) :
    ((List.range' 1 count).map fun rank : Nat => sortKey rank).Pairwise Text.Before ↔
      count ≤ 9999 := by
  rw [List.pairwise_map]
  constructor
  · intro rising
    by_contra many
    have turn := List.pairwise_iff_getElem.mp rising 9998 9999 (by simp; omega) (by simp; omega)
      (by decide)
    simp only [List.getElem_range', Nat.one_mul, Nat.reduceAdd] at turn
    rw [sortKey_before_iff (by decide)] at turn
    revert turn
    decide
  · intro few
    apply (List.pairwise_lt_range').imp_of_mem
    intro lower upper _ member below
    have bounds := List.mem_range'_1.mp member
    exact sortKey_before_of_lt below (by omega)

/-- Offered names come with the keys of their ranks. The key of a new line comes before them all.
The keys of two names are in the order of their ranks exactly if the lower rank is at most what the
higher one starts with in as many places. So all are in order exactly if there are at most 9999. -/
theorem attributeItems_sortKeys (names : List Text) (leadingSpace : Bool) :
    let items := attributeItems names leadingSpace
    items.map Item.label = rankNames names ∧
      (∀ item ∈ items, Text.Before Item.newLine.sortKey item.sortKey) ∧
      (∀ (lower upper : Nat) (first second : Item), lower < upper →
        items[lower]? = some first → items[upper]? = some second →
          (Text.Before first.sortKey second.sortKey ↔
            lower + 1 ≤ (upper + 1) / 10 ^ (second.sortKey.length - first.sortKey.length))) ∧
      ((items.map Item.sortKey).Pairwise Text.Before ↔ names.length ≤ 9999) := by
  intro items
  have keys : items.map Item.sortKey =
      (List.range' 1 names.length).map fun rank : Nat => sortKey rank :=
    map_sortKey_attributeItems names leadingSpace
  refine ⟨map_label_numbered leadingSpace 1 (rankNames names), ?_, ?_, ?_⟩
  · intro item member
    have listed : item.sortKey ∈ items.map Item.sortKey := List.mem_map_of_mem member
    rw [keys] at listed
    obtain ⟨rank, inRange, same⟩ := List.mem_map.mp listed
    have positive := (List.mem_range'_1.mp inRange).1
    rw [← same]
    exact (sortKey_before_iff positive).mpr (Nat.zero_le _)
  · intro lower upper first second below atLower atUpper
    rw [sortKey_of_getElem? atLower, sortKey_of_getElem? atUpper]
    exact sortKey_before_iff (Nat.succ_lt_succ below)
  · rw [keys]
    exact pairwise_sortKeys_iff names.length

/-- The numerals below ten thousand, as names. -/
def numeralNames : List Text := (List.range 10000).map Text.ofNat

theorem length_numeralNames : numeralNames.length = 10000 := by
  rw [numeralNames, List.length_map, List.length_range]

/-- The keys of the ranks one thousand and ten thousand are in order. -/
theorem attributeItems_sortKeys_numeralNames :
    ∃ first second, (attributeItems numeralNames false)[999]? = some first ∧
      (attributeItems numeralNames false)[9999]? = some second ∧
      Text.Before first.sortKey second.sortKey := by
  have size : (attributeItems numeralNames false).length = 10000 := by
    rw [← List.length_map Item.sortKey, map_sortKey_attributeItems, List.length_map,
      List.length_range', length_numeralNames]
  have lower := List.getElem?_eq_getElem (show 999 < _ by rw [size]; decide)
  have upper := List.getElem?_eq_getElem (show 9999 < _ by rw [size]; decide)
  have order := (attributeItems_sortKeys numeralNames false).2.2.1 999 9999 _ _ (by decide) lower
    upper
  refine ⟨_, _, lower, upper, order.mpr ?_⟩
  rw [sortKey_of_getElem? lower, sortKey_of_getElem? upper]
  decide

/-- Of ten thousand names the last one has a key that comes before the key of the one above it. -/
theorem sortKeys_turn_back_numeralNames :
    let keys := (attributeItems numeralNames false).map Item.sortKey
    keys[9998]? = some "9999".toList ∧ keys[9999]? = some "10000".toList ∧
      Text.Before "10000".toList "9999".toList ∧ ¬ keys.Pairwise Text.Before := by
  intro keys
  have ranks : keys = (List.range' 1 10000).map fun rank : Nat => sortKey rank := by
    rw [← length_numeralNames]
    exact map_sortKey_attributeItems numeralNames false
  refine ⟨?_, ?_, ?_, ?_⟩
  · rw [ranks, List.getElem?_map, List.getElem?_range' (by decide)]
    decide
  · rw [ranks, List.getElem?_map, List.getElem?_range' (by decide)]
    decide
  · exact List.Lex.rel (by decide)
  · rw [ranks, pairwise_sortKeys_iff]
    decide

end Completion

end GrammarLens
