import GrammarLens.Completion.Item
import GrammarLens.Proofs.PathResolution

/-!
Contract: the order in which names are offered.

Owns:
- the order of code points, as a relation that does not mention the comparison;
- the rank of names is a total order, so that a set of names is offered in one way only;
- that order in terms of capitals, small letters and code points: the ranking of names is the one
  permutation of them that follows it;
- offers: lists that hold the names with a property, each once and in that order.

Does not own: which names are offered where.
-/

namespace GrammarLens

theorem Text.le_antisymm {left right : Text} (lower : le left right) (upper : le right left) :
    left = right := by
  induction left generalizing right with
  | nil =>
      cases right with
      | nil => rfl
      | cons d others => simp [le] at upper
  | cons c rest inductionHypothesis =>
      cases right with
      | nil => simp [le] at lower
      | cons d others =>
          by_cases same : c = d
          · subst same
            simp only [le, if_true] at lower upper
            rw [inductionHypothesis lower upper]
          · simp only [le, same, Ne.symm same, if_false, decide_eq_true_eq] at lower upper
            omega

/-- Strictly before in the order of code points: the first difference decides, and a text comes
before its extensions. -/
def Text.Before : Text → Text → Prop := List.Lex fun c d => c.toNat < d.toNat

theorem Text.not_before_nil (left : Text) : ¬ Before left [] := List.not_lex_nil

theorem Text.before_cons_iff {c d : Char} {left right : Text} :
    Before (c :: left) (d :: right) ↔ c.toNat < d.toNat ∨ c = d ∧ Before left right :=
  List.cons_lex_cons_iff

theorem Text.before_irrefl (text : Text) : ¬ Before text text :=
  List.lex_irrefl (fun c => Nat.lt_irrefl c.toNat) text

/-- The comparison of texts decides the order of code points. -/
theorem Text.le_iff {left right : Text} : le left right ↔ left = right ∨ Before left right := by
  induction left generalizing right with
  | nil =>
      cases right with
      | nil => simp [le]
      | cons d others => simp [le, Before]
  | cons c rest inductionHypothesis =>
      cases right with
      | nil => simp [le, not_before_nil]
      | cons d others =>
          rw [before_cons_iff, List.cons.injEq]
          by_cases same : c = d
          · simp [le, same, inductionHypothesis]
          · simp [le, same]

theorem Text.le_iff_not_before {left right : Text} : le left right ↔ ¬ Before right left := by
  constructor
  · intro lower before
    have same := le_antisymm lower (le_iff.mpr (.inr before))
    rw [same] at before
    exact before_irrefl right before
  · intro notBefore
    have total := le_total left right
    rw [Bool.or_eq_true, @le_iff right left] at total
    cases total with
    | inl lower => exact lower
    | inr upper => exact le_iff.mpr (.inl (upper.resolve_right notBefore).symm)

namespace Completion

/-- Capitals come before other names; then small letters decide, then code points. -/
theorem rankLe_iff {left right : Text} :
    rankLe left right ↔
      isCapitalName left ∧ ¬ isCapitalName right ∨
        (isCapitalName left = isCapitalName right) ∧
          (smallLetters left ≠ smallLetters right ∧
              Text.le (smallLetters left) (smallLetters right) ∨
            smallLetters left = smallLetters right ∧ Text.le left right) := by
  unfold rankLe
  by_cases capitals : isCapitalName left = isCapitalName right
  · by_cases small : smallLetters left = smallLetters right
    · simp [capitals, small]
    · simp [capitals, small]
  · cases first : isCapitalName left <;> cases second : isCapitalName right <;>
      simp_all

theorem rankLe_total (left right : Text) : rankLe left right || rankLe right left := by
  have small := Text.le_total (smallLetters left) (smallLetters right)
  have raw := Text.le_total left right
  simp only [Bool.or_eq_true] at small raw ⊢
  rw [rankLe_iff, rankLe_iff]
  grind

theorem rankLe_antisymm {left right : Text} (lower : rankLe left right)
    (upper : rankLe right left) : left = right := by
  rw [rankLe_iff] at lower upper
  have small := @Text.le_antisymm (smallLetters left) (smallLetters right)
  have raw := @Text.le_antisymm left right
  grind

theorem rankLe_trans (first second third : Text) (lower : rankLe first second)
    (upper : rankLe second third) : rankLe first third := by
  rw [rankLe_iff] at *
  have small := Text.le_trans (smallLetters first) (smallLetters second) (smallLetters third)
  have raw := Text.le_trans first second third
  have turned := @Text.le_antisymm (smallLetters first) (smallLetters second)
  grind

/-- A permutation of names that follows the order is their ranking. -/
theorem eq_rankNames_of_pairwise {names others : List Text} (same : others.Perm names)
    (follows : others.Pairwise fun left right => rankLe left right) : others = rankNames names := by
  apply (same.trans (List.mergeSort_perm names rankLe).symm).eq_of_pairwise
  · intro left right _ _ lower upper
    exact rankLe_antisymm lower upper
  · exact follows
  · exact List.pairwise_mergeSort rankLe_trans rankLe_total names

/-- The order in which names come plays no part in the order in which they are offered. -/
theorem rankNames_eq_of_perm {names others : List Text} (same : names.Perm others) :
    rankNames names = rankNames others := by
  apply eq_rankNames_of_pairwise
  · exact (List.mergeSort_perm names rankLe).trans same
  · exact List.pairwise_mergeSort rankLe_trans rankLe_total names

/-! ## The order of names -/

/-- A name in capitals: occupied, and made of the letters from A to Z, digits, underscore, plus and
minus. -/
def IsCapitals (name : Text) : Prop :=
  name ≠ [] ∧ ∀ c ∈ name,
    'A'.toNat ≤ c.toNat ∧ c.toNat ≤ 'Z'.toNat ∨ '0'.toNat ≤ c.toNat ∧ c.toNat ≤ '9'.toNat ∨
      c = '_' ∨ c = '+' ∨ c = '-'

/-- Names in capitals come before all others. Within these two groups the name in small letters
decides, and then the name itself. -/
structure Ranks (left right : Text) : Prop where
  capitalsFirst : IsCapitals right → IsCapitals left
  grouped : (IsCapitals left ↔ IsCapitals right) →
    Text.Before (left.map Char.toLower) (right.map Char.toLower) ∨
      left.map Char.toLower = right.map Char.toLower ∧ (left = right ∨ Text.Before left right)

private theorem isCapitalName_iff {name : Text} (unbroken : '\n' ∉ name) :
    isCapitalName name ↔ IsCapitals name := by
  have whole : Text.dropFinalNewline name = name := by
    rw [Text.dropFinalNewline, if_neg]
    intro last
    exact unbroken (List.mem_of_getLast? last)
  have character : ∀ c : Char, isCapitalChar c ↔
      'A'.toNat ≤ c.toNat ∧ c.toNat ≤ 'Z'.toNat ∨ '0'.toNat ≤ c.toNat ∧ c.toNat ≤ '9'.toNat ∨
        c = '_' ∨ c = '+' ∨ c = '-' := by
    intro c
    have capital : c.isUpper = decide ('A'.val ≤ c.val ∧ c.val ≤ 'Z'.val) := rfl
    simp only [isCapitalChar, capital, Char.isDigit, Bool.or_eq_true, Bool.and_eq_true,
      decide_eq_true_eq, beq_iff_eq, or_assoc]
    rfl
  simp only [isCapitalName, whole, IsCapitals, Bool.and_eq_true, List.all_eq_true, character,
    Bool.not_eq_true', List.isEmpty_eq_false_iff]

private theorem rankLe_iff_ranks {left right : Text} (leftUnbroken : '\n' ∉ left)
    (rightUnbroken : '\n' ∉ right) : rankLe left right ↔ Ranks left right := by
  have small : smallLetters left ≠ smallLetters right ∧
        Text.le (smallLetters left) (smallLetters right) ↔
      Text.Before (left.map Char.toLower) (right.map Char.toLower) := by
    rw [Text.le_iff]
    constructor
    · intro lower
      exact lower.2.resolve_left lower.1
    · intro before
      refine ⟨?_, .inr before⟩
      intro same
      rw [show left.map Char.toLower = right.map Char.toLower from same] at before
      exact Text.before_irrefl _ before
  have sameGroup : isCapitalName left = isCapitalName right ↔
      (IsCapitals left ↔ IsCapitals right) := by
    rw [Bool.eq_iff_iff, isCapitalName_iff leftUnbroken, isCapitalName_iff rightUnbroken]
  rw [rankLe_iff, sameGroup, isCapitalName_iff leftUnbroken, isCapitalName_iff rightUnbroken, small,
    Text.le_iff]
  constructor
  · intro ranked
    cases ranked with
    | inl apart =>
        exact ⟨fun _ => apart.1, fun together => absurd (together.mp apart.1) apart.2⟩
    | inr grouped => exact ⟨grouped.1.mpr, fun _ => grouped.2⟩
  · intro ranks
    by_cases together : IsCapitals left ↔ IsCapitals right
    · exact .inr ⟨together, ranks.grouped together⟩
    · left
      by_cases first : IsCapitals left
      · exact ⟨first, fun second => together ⟨fun _ => second, fun _ => first⟩⟩
      · refine absurd ⟨fun capitals => absurd capitals first, ?_⟩ together
        exact ranks.capitalsFirst

theorem pairwise_ranks_iff {names : List Text} (unbroken : ∀ name ∈ names, '\n' ∉ name) :
    (names.Pairwise fun left right => rankLe left right) ↔ names.Pairwise Ranks := by
  apply List.Pairwise.iff_of_mem
  intro left right leftMember rightMember
  exact rankLe_iff_ranks (unbroken left leftMember) (unbroken right rightMember)

/-- The ranking of names without line breaks: a permutation of them in which capitals come before
all other names, with either group in order of the small letters and then of the names themselves.
There is no other such permutation, so the order in which names come plays no part. -/
theorem rankNames_ranks (names : List Text) (unbroken : ∀ name ∈ names, '\n' ∉ name) :
    (rankNames names).Perm names ∧ (rankNames names).Pairwise Ranks ∧
      ∀ others : List Text, others.Perm names →
        rankNames others = rankNames names ∧
          (others.Pairwise Ranks → others = rankNames names) := by
  have ranking : (rankNames names).Perm names := List.mergeSort_perm names rankLe
  have ranked := List.pairwise_mergeSort rankLe_trans rankLe_total names
  refine ⟨ranking, (pairwise_ranks_iff ?_).mp ranked, ?_⟩
  · intro name member
    exact unbroken name (ranking.mem_iff.mp member)
  · intro others same
    refine ⟨rankNames_eq_of_perm same, ?_⟩
    intro follows
    apply eq_rankNames_of_pairwise same
    refine (pairwise_ranks_iff ?_).mpr follows
    intro name member
    exact unbroken name (same.mem_iff.mp member)

/-- Names of which some differ in case only, within a group and across the two. -/
def caseTwins : List Text :=
  ["b".toList, "aB".toList, "A".toList, "Ab".toList, "AB".toList, "a".toList, "Ab".toList]

/-- The same names with capitals first, then in order of small letters, then of code points. -/
def rankedTwins : List Text :=
  ["A".toList, "AB".toList, "a".toList, "Ab".toList, "Ab".toList, "aB".toList, "b".toList]

theorem rankNames_ranks_caseTwins :
    (∀ name ∈ caseTwins, '\n' ∉ name) ∧ rankNames caseTwins = rankedTwins := by
  have unbroken : ∀ name ∈ caseTwins, '\n' ∉ name := by decide
  have same : rankedTwins.Perm caseTwins := by decide
  have ranked : rankedTwins.Pairwise fun left right => rankLe left right := by decide
  have follows : rankedTwins.Pairwise Ranks := (pairwise_ranks_iff (by decide)).mp ranked
  exact ⟨unbroken, (((rankNames_ranks caseTwins unbroken).2.2 rankedTwins same).2 follows).symm⟩

/-! ## Offers -/

/-- The names with a property, each once, in the order of their ranks. -/
structure Offers (names : List Text) (wanted : Text → Prop) : Prop where
  once : names.Nodup
  ranked : names.Pairwise fun left right => rankLe left right
  members : ∀ name, name ∈ names ↔ wanted name

theorem offers_rankNames {names : List Text} {wanted : Text → Prop} (once : names.Nodup)
    (members : ∀ name, name ∈ names ↔ wanted name) : Offers (rankNames names) wanted where
  once := (List.mergeSort_perm names rankLe).nodup_iff.mpr once
  ranked := List.pairwise_mergeSort rankLe_trans rankLe_total names
  members := fun name => (List.mergeSort_perm names rankLe).mem_iff.trans (members name)

theorem Offers.unique {names others : List Text} {wanted : Text → Prop}
    (left : Offers names wanted) (right : Offers others wanted) : names = others := by
  have same : names.Perm others := by
    rw [List.perm_ext_iff_of_nodup left.once right.once]
    intro name
    exact (left.members name).trans (right.members name).symm
  apply same.eq_of_pairwise _ left.ranked right.ranked
  intro first second _ _ lower upper
  exact rankLe_antisymm lower upper

end Completion

end GrammarLens
