import GrammarLens.Text

/-!
Contract: which matches of a pattern a scan from left to right takes.

Owns:
- one step of the scan: what is found at the first character, and how much is passed over behind it;
- the scan of a text that starts with a match, or with a character where none starts;
- the occurrences of a pattern: the matches that no earlier occurrence reaches into, by their
  places;
- their order.

Does not own: any pattern.
-/

namespace GrammarLens.Text

variable {α : Type} {match? : Text → Option (α × Nat)}

/-! ## One step -/

/-- What is found at the first character of a text. -/
def foundFirst (match? : Text → Option (α × Nat)) (offset : Nat) :
    (skip : Nat) → Text → List (Nat × α)
  | _ + 1, _ => []
  | 0, text => (match? text).toList.map fun found => (offset, found.1)

/-- How many characters are still to be passed over behind the first one of a text. -/
def passedOver (match? : Text → Option (α × Nat)) : (skip : Nat) → Text → Nat
  | skip + 1, _ => skip
  | 0, text => (match? text).elim 0 fun found => found.2 - 1

theorem occurrencesFrom_cons (offset skip : Nat) (c : Char) (rest : Text) :
    occurrencesFrom match? offset skip (c :: rest) =
      foundFirst match? offset skip (c :: rest) ++
        occurrencesFrom match? (offset + 1) (passedOver match? skip (c :: rest)) rest := by
  cases skip with
  | succ skip => rfl
  | zero =>
      rw [occurrencesFrom, foundFirst, passedOver]
      cases match? (c :: rest) with
      | none => rfl
      | some found => rfl

theorem mem_foundFirst_iff {offset skip place : Nat} {text : Text} {found : α} :
    (place, found) ∈ foundFirst match? offset skip text ↔
      skip = 0 ∧ place = offset ∧ ∃ length, match? text = some (found, length) := by
  cases skip with
  | succ skip => simp [foundFirst]
  | zero =>
      rw [foundFirst]
      cases match? text with
      | none => simp
      | some pair =>
          obtain ⟨value, length⟩ := pair
          simp [eq_comm]

private theorem passedOver_le_iff {skip index : Nat} {text : Text} :
    passedOver match? skip text ≤ index ↔
      skip ≤ index + 1 ∧
        (skip = 0 → ∀ value length, match? text = some (value, length) → length ≤ index + 1) := by
  cases skip with
  | succ skip => simp [passedOver]
  | zero =>
      rw [passedOver]
      cases match? text with
      | none => simp
      | some pair =>
          simp only [Option.elim_some, Nat.zero_le, true_and, forall_const, Option.some.injEq]
          constructor
          · intro passed value length same
            rw [same] at passed
            exact Nat.sub_le_iff_le_add.mp passed
          · intro fits
            exact Nat.sub_le_iff_le_add.mpr (fits pair.1 pair.2 rfl)

theorem occurrencesFrom_of_none {c : Char} {rest : Text} (none : match? (c :: rest) = none)
    (offset : Nat) :
    occurrencesFrom match? offset 0 (c :: rest) = occurrencesFrom match? (offset + 1) 0 rest := by
  rw [occurrencesFrom, none]

/-- Matching resumes behind what was passed over. -/
theorem occurrencesFrom_append (match? : Text → Option (α × Nat)) (offset : Nat)
    (passed rest : Text) :
    occurrencesFrom match? offset passed.length (passed ++ rest) =
      occurrencesFrom match? (offset + passed.length) 0 rest := by
  induction passed generalizing offset with
  | nil => rfl
  | cons c passed inductionHypothesis =>
      rw [List.cons_append, List.length_cons, occurrencesFrom, inductionHypothesis,
        Nat.add_right_comm, Nat.add_assoc]

/-- A match is found where it begins, and the scan goes on where it ends. -/
theorem occurrencesFrom_of_some {passed rest : Text} {found : α}
    (leads : match? (passed ++ rest) = some (found, passed.length)) (occupied : passed ≠ [])
    (offset : Nat) :
    occurrencesFrom match? offset 0 (passed ++ rest) =
      (offset, found) :: occurrencesFrom match? (offset + passed.length) 0 rest := by
  obtain ⟨c, others, rfl⟩ := List.exists_cons_of_ne_nil occupied
  rw [List.cons_append] at leads ⊢
  rw [occurrencesFrom, leads, List.length_cons]
  simp only [Nat.add_sub_cancel, occurrencesFrom_append]
  rw [Nat.add_assoc, Nat.add_comm 1]

/-! ## Where occurrences stand -/

/-- An occurrence stands where its pattern matches a suffix of the text. -/
theorem match_of_mem_occurrencesFrom {offset skip position : Nat} {text : Text} {found : α}
    (member : (position, found) ∈ occurrencesFrom match? offset skip text) :
    ∃ before suffix length, text = before ++ suffix ∧ position = offset + before.length ∧
      match? suffix = some (found, length) := by
  induction text generalizing offset skip with
  | nil =>
      cases skip <;> simp [occurrencesFrom] at member
  | cons c rest inductionHypothesis =>
      rw [occurrencesFrom_cons, List.mem_append, mem_foundFirst_iff] at member
      rcases member with ⟨-, rfl, length, here⟩ | later
      · exact ⟨[], c :: rest, length, rfl, rfl, here⟩
      · obtain ⟨before, suffix, length, split, place, matched⟩ := inductionHypothesis later
        refine ⟨c :: before, suffix, length, by rw [split, List.cons_append], ?_, matched⟩
        rw [place, List.length_cons]
        omega

theorem match_of_mem_occurrences {position : Nat} {text : Text} {found : α}
    (member : (position, found) ∈ text.occurrences match?) :
    ∃ before suffix length, text = before ++ suffix ∧ position = before.length ∧
      match? suffix = some (found, length) := by
  obtain ⟨before, suffix, length, split, place, matched⟩ := match_of_mem_occurrencesFrom member
  exact ⟨before, suffix, length, split, by omega, matched⟩

theorem le_of_mem_occurrencesFrom {offset skip place : Nat} {text : Text} {found : α}
    (member : (place, found) ∈ occurrencesFrom match? offset skip text) : offset ≤ place := by
  obtain ⟨before, -, -, -, reached, -⟩ := match_of_mem_occurrencesFrom member
  exact reached ▸ Nat.le_add_right _ _

section Step

variable {offset skip index : Nat} {c : Char} {rest : Text} {found : α}

private theorem mem_occurrencesFrom_here_iff :
    (offset, found) ∈ occurrencesFrom match? offset skip (c :: rest) ↔
      skip = 0 ∧ ∃ length, match? (c :: rest) = some (found, length) := by
  rw [occurrencesFrom_cons, List.mem_append, mem_foundFirst_iff]
  constructor
  · rintro (⟨unskipped, -, matched⟩ | later)
    · exact ⟨unskipped, matched⟩
    · exact absurd (le_of_mem_occurrencesFrom later) (Nat.not_succ_le_self offset)
  · rintro ⟨unskipped, matched⟩
    exact .inl ⟨unskipped, rfl, matched⟩

private theorem mem_occurrencesFrom_succ_iff :
    (offset + (index + 1), found) ∈ occurrencesFrom match? offset skip (c :: rest) ↔
      (offset + 1 + index, found) ∈
        occurrencesFrom match? (offset + 1) (passedOver match? skip (c :: rest)) rest := by
  have moved : offset + (index + 1) = offset + 1 + index := by omega
  rw [occurrencesFrom_cons, List.mem_append, mem_foundFirst_iff, moved]
  constructor
  · rintro (⟨-, here, -⟩ | later)
    · omega
    · exact later
  · exact .inr

end Step

/-! ## The whole scan -/

/-- An occurrence is a match that no earlier occurrence reaches into. -/
theorem mem_occurrencesFrom_iff {offset skip index : Nat} {text : Text} {found : α} :
    (offset + index, found) ∈ occurrencesFrom match? offset skip text ↔
      index < text.length ∧ skip ≤ index ∧
        (∃ length, match? (text.drop index) = some (found, length)) ∧
        ∀ earlier < index, ∀ value length,
          (offset + earlier, value) ∈ occurrencesFrom match? offset skip text →
            match? (text.drop earlier) = some (value, length) → earlier + length ≤ index := by
  induction text generalizing offset skip index with
  | nil => simp [occurrencesFrom]
  | cons c rest inductionHypothesis =>
      cases index with
      | zero =>
          rw [Nat.add_zero, mem_occurrencesFrom_here_iff]
          simp
      | succ index =>
          rw [mem_occurrencesFrom_succ_iff, inductionHypothesis, passedOver_le_iff,
            List.length_cons, List.drop_succ_cons, Nat.succ_lt_succ_iff]
          constructor
          · rintro ⟨inside, ⟨passed, fits⟩, matched, clear⟩
            refine ⟨inside, passed, matched, ?_⟩
            intro earlier before value length member there
            cases earlier with
            | zero =>
                rw [Nat.zero_add]
                exact fits (mem_occurrencesFrom_here_iff.mp member).1 value length there
            | succ earlier =>
                rw [Nat.add_right_comm, Nat.add_le_add_iff_right]
                exact clear earlier (Nat.lt_of_succ_lt_succ before) value length
                  (mem_occurrencesFrom_succ_iff.mp member) there
          · rintro ⟨inside, passed, matched, clear⟩
            refine ⟨inside, ⟨passed, ?_⟩, matched, ?_⟩
            · intro unskipped value length there
              have member : (offset, value) ∈ occurrencesFrom match? offset skip (c :: rest) :=
                mem_occurrencesFrom_here_iff.mpr ⟨unskipped, length, there⟩
              have fits := clear 0 (Nat.succ_pos _) value length member there
              rwa [Nat.zero_add] at fits
            · intro earlier before value length member there
              have apart := clear (earlier + 1) (Nat.succ_lt_succ before) value length
                (mem_occurrencesFrom_succ_iff.mpr member) there
              rwa [Nat.add_right_comm, Nat.add_le_add_iff_right] at apart

theorem pairwise_occurrencesFrom (match? : Text → Option (α × Nat)) (offset skip : Nat)
    (text : Text) :
    (occurrencesFrom match? offset skip text).Pairwise fun left right => left.1 < right.1 := by
  induction text generalizing offset skip with
  | nil => simp [occurrencesFrom]
  | cons c rest inductionHypothesis =>
      rw [occurrencesFrom_cons, List.pairwise_append]
      refine ⟨?_, inductionHypothesis _ _, ?_⟩
      · cases skip with
        | succ skip => exact List.Pairwise.nil
        | zero =>
            rw [foundFirst]
            cases match? (c :: rest) with
            | none => exact List.Pairwise.nil
            | some found => exact List.pairwise_singleton _ _
      · intro first here second behind
        rw [(mem_foundFirst_iff.mp here).2.1]
        exact le_of_mem_occurrencesFrom behind

end GrammarLens.Text
