import GrammarLens.Text.Cursor
import GrammarLens.Proofs.NameRun

/-!
Contract: offsets and positions lead back to each other.

Owns:
- how far apart the positions of two offsets are;
- the offsets that have a position of their own;
- such an offset is found again from its position, also when lines end in a carriage return
  and a newline.

Does not own: what stands at a position.
-/

namespace GrammarLens

namespace Text

/-! ## Positions -/

/-- A later position is on a later line, or as many columns further on the same line as there are
characters between. -/
theorem positionFrom_after (position : Position) (count : Nat) (text : Text)
    (inside : count ≤ text.length) :
    position.line < (positionFrom position count text).line ∨
      (positionFrom position count text).line = position.line ∧
        (positionFrom position count text).character = position.character + count ∧
        '\n' ∉ text.take count := by
  induction text generalizing position count with
  | nil =>
      have none : count = 0 := by simpa using inside
      subst none
      exact .inr ⟨rfl, rfl, by simp⟩
  | cons c rest inductionHypothesis =>
      cases count with
      | zero => exact .inr ⟨rfl, rfl, by simp⟩
      | succ count =>
          rw [List.length_cons] at inside
          rw [positionFrom]
          have next := inductionHypothesis (position.after c) count (by omega)
          unfold Position.after at next ⊢
          by_cases newline : c = '\n'
          · rw [if_pos newline] at next ⊢
            simp only at next ⊢
            omega
          · rw [if_neg newline] at next ⊢
            rcases next with below | ⟨line, column, free⟩
            · exact .inl below
            · refine .inr ⟨line, by rw [column]; simp only; omega, ?_⟩
              rw [List.take_succ_cons, List.mem_cons, not_or]
              exact ⟨Ne.symm newline, free⟩

/-- What stands behind an offset has no part in its position. -/
theorem positionFrom_append (position : Position) (before rest : Text) :
    positionFrom position before.length (before ++ rest) =
      positionFrom position before.length before := by
  induction before generalizing position with
  | nil =>
      cases rest <;> rfl
  | cons c before inductionHypothesis => exact inductionHypothesis (position.after c)

private theorem positionFrom_nil (position : Position) (count : Nat) :
    positionFrom position count [] = position := by
  cases count <;> rfl

/-- The way to an offset can be gone in two steps. -/
theorem positionFrom_add (position : Position) (first second : Nat) (text : Text) :
    positionFrom position (first + second) text =
      positionFrom (positionFrom position first text) second (text.drop first) := by
  induction text generalizing position first with
  | nil => rw [List.drop_nil, positionFrom_nil, positionFrom_nil, positionFrom_nil]
  | cons c rest inductionHypothesis =>
      cases first with
      | zero =>
          rw [Nat.zero_add, List.drop_zero]
          rfl
      | succ first =>
          rw [Nat.add_right_comm, positionFrom, positionFrom, inductionHypothesis,
            List.drop_succ_cons]

/-- Characters without a newline lead on along the line. -/
theorem positionFrom_of_free (position : Position) {count : Nat} {text : Text}
    (inside : count ≤ text.length) (free : '\n' ∉ text.take count) :
    positionFrom position count text = ⟨position.line, position.character + count⟩ := by
  induction text generalizing position count with
  | nil =>
      obtain rfl : count = 0 := by simpa using inside
      rfl
  | cons c rest inductionHypothesis =>
      cases count with
      | zero => rfl
      | succ count =>
          rw [List.take_succ_cons, List.mem_cons, not_or] at free
          rw [positionFrom, inductionHypothesis _ (Nat.le_of_succ_le_succ inside) free.2,
            Position.after, if_neg (Ne.symm free.1), Nat.add_assoc, Nat.add_comm 1]

/-! ## Back to offsets -/

/-- Offsets that have a position of their own: all but the one between a carriage return and the
end of its line. -/
def IsAddressable (text : Text) (offset : Nat) : Prop :=
  offset ≤ text.length ∧
    ¬ (text.before? offset = some '\r' ∧ (offset = text.length ∨ text[offset]? = some '\n'))

theorem IsAddressable.tail {c : Char} {rest : Text} {offset : Nat}
    (addressable : IsAddressable (c :: rest) (offset + 1)) : rest.IsAddressable offset := by
  obtain ⟨inside, clear⟩ := addressable
  rw [List.length_cons] at inside clear
  refine ⟨by omega, ?_⟩
  rintro ⟨returned, ended⟩
  cases offset with
  | zero => simp [before?] at returned
  | succ offset =>
      apply clear
      refine ⟨by simpa [before?] using returned, ?_⟩
      rcases ended with last | newline
      · exact .inl (by omega)
      · exact .inr (by simpa using newline)

theorem le_length_firstLine {text : Text} {offset : Nat} (addressable : text.IsAddressable offset)
    (free : '\n' ∉ text.take offset) : offset ≤ (firstLine text).length := by
  obtain ⟨inside, clear⟩ := addressable
  have visible : text.takeWhile (· != '\n') =
      text.take offset ++ (text.drop offset).takeWhile (· != '\n') := by
    have passed : ∀ c ∈ text.take offset, c != '\n' := by
      intro c member
      have different : c ≠ '\n' := fun same => free (same ▸ member)
      simpa using different
    rw [← List.takeWhile_append_of_pos passed, List.take_append_drop]
  have taken : (text.take offset).length = offset := by
    rw [List.length_take]
    omega
  unfold firstLine dropFinalReturn
  rw [visible]
  split
  · next returned =>
    rw [List.length_dropLast, List.length_append, taken]
    -- The line does not end right at the offset, or the offset would follow its carriage return.
    cases ends : (text.drop offset).takeWhile (· != '\n') with
    | cons c rest =>
        rw [List.length_cons]
        omega
    | nil =>
        exfalso
        apply clear
        rw [ends, List.append_nil, ← before?_eq_getLast?_take inside] at returned
        refine ⟨returned, ?_⟩
        rw [List.takeWhile_eq_nil_iff] at ends
        rcases Nat.eq_or_lt_of_le inside with last | earlier
        · exact .inl last
        · have next := ends (by rw [List.length_drop]; omega)
          have newline : text[offset] = '\n' := by simpa using next
          exact .inr (by rw [List.getElem?_eq_getElem earlier, newline])
  · rw [List.length_append, taken]
    omega

private theorem offsetBelow_positionFrom {text : Text} {offset : Nat} (position : Position)
    (addressable : text.IsAddressable offset)
    (below : position.line < (positionFrom position offset text).line) :
    offsetBelow (positionFrom position offset text).character
      ((positionFrom position offset text).line - position.line) text = offset := by
  induction text generalizing position offset with
  | nil =>
      have none : offset = 0 := by simpa using addressable.1
      subst none
      simp [positionFrom] at below
  | cons c rest inductionHypothesis =>
      cases offset with
      | zero => simp [positionFrom] at below
      | succ offset =>
          have tail := addressable.tail
          rw [positionFrom] at below ⊢
          obtain ⟨lines, lineCount⟩ : ∃ lines,
              (positionFrom (position.after c) offset rest).line - position.line = lines + 1 :=
            ⟨_, (Nat.sub_add_cancel (by omega)).symm⟩
          rw [lineCount, offsetBelow]
          by_cases newline : c = '\n'
          · rw [if_pos newline]
            congr 1
            have moved : position.after c = ⟨position.line + 1, 0⟩ := if_pos newline
            rw [moved] at lineCount ⊢
            rcases positionFrom_after ⟨position.line + 1, 0⟩ offset rest tail.1 with
              later | ⟨line, column, free⟩
            · have next := inductionHypothesis _ tail later
              simp only at next
              rwa [show lines = (positionFrom ⟨position.line + 1, 0⟩ offset rest).line -
                (position.line + 1) by omega]
            · simp only at line column
              rw [show lines = 0 by omega, offsetBelow, column, Nat.zero_add]
              exact Nat.min_eq_left (le_length_firstLine tail free)
          · rw [if_neg newline]
            congr 1
            have moved : (position.after c).line = position.line := by
              rw [Position.after, if_neg newline]
            have next := inductionHypothesis (position.after c) tail (by omega)
            rwa [moved, lineCount] at next

/-- The position of an offset leads back to the offset. -/
theorem offsetAt_positionAt {text : Text} {offset : Nat} (addressable : text.IsAddressable offset) :
    text.offsetAt (text.positionAt offset).line (text.positionAt offset).character = offset := by
  rw [offsetAt, if_neg (by omega), Int.toNat_natCast, Int.toNat_natCast, positionAt,
    Int.toNat_natCast]
  rcases positionFrom_after ⟨0, 0⟩ offset text addressable.1 with later | ⟨line, column, free⟩
  · exact offsetBelow_positionFrom ⟨0, 0⟩ addressable later
  · simp only at line column
    rw [line, column, Nat.zero_add, offsetBelow]
    exact Nat.min_eq_left (le_length_firstLine addressable free)

end Text

/-! ## The ends of a run -/

theorem IsRun.isAddressable_start {text : Text} {start finish : Nat}
    (run : IsRun text start finish) : text.IsAddressable start := by
  have occupied := run.occupied
  have within := run.within
  refine ⟨by omega, ?_⟩
  rintro ⟨-, last | newline⟩
  · omega
  · have inRun := run.named '\n' (Text.mem_slice newline (Nat.le_refl _) occupied)
    exact absurd inRun (by decide)

theorem IsRun.isAddressable_finish {text : Text} {start finish : Nat}
    (run : IsRun text start finish) : text.IsAddressable finish := by
  have occupied := run.occupied
  refine ⟨run.within, ?_⟩
  rintro ⟨returned, -⟩
  cases finish with
  | zero => omega
  | succ last =>
      have inRun := run.named '\r' (Text.mem_slice returned (by omega) (by omega))
      exact absurd inRun (by decide)

/-- A run ends on the line that it begins on, as many columns further on as it has characters. -/
theorem IsRun.positionAt_finish {text : Text} {start finish : Nat} (run : IsRun text start finish) :
    text.positionAt finish =
      ⟨(text.positionAt start).line, (text.positionAt start).character + (finish - start)⟩ := by
  obtain ⟨count, rfl⟩ := Nat.exists_eq_add_of_le (Nat.le_of_lt run.occupied)
  have within := run.within
  have free : '\n' ∉ (text.drop start).take count := by
    intro newline
    have inRun : '\n' ∈ text.slice start (start + count) := by
      rwa [Text.slice, List.drop_take, Nat.add_sub_cancel_left]
    exact absurd (run.named '\n' inRun) (by decide)
  rw [Text.positionAt, Text.positionAt, Int.toNat_natCast, Int.toNat_natCast,
    Text.positionFrom_add, Text.positionFrom_of_free _ (by rw [List.length_drop]; omega) free,
    Nat.add_sub_cancel_left]

end GrammarLens
