import GrammarLens.Proofs.Lines
import Mathlib.Data.Prod.Lex
import Mathlib.Order.Interval.Set.Defs
import Mathlib.Order.Monotone.Defs

/-!
Contract: positions are ordered as the offsets are that they stand for.

Owns:
- the order of positions by line, then column;
- the position of an offset leads back to it, or to the offset before it where a carriage return
  ends a line;
- the three ways in which a line and a column are clamped to a text;
- clamping keeps the order of positions, and never stops between a carriage return and its newline.
-/

namespace GrammarLens

/-- A position as a pair that is ordered by line, then column. -/
def Position.key (position : Position) : Nat ×ₗ Nat := toLex (position.line, position.character)

namespace Text

/-! ## From offsets to positions -/

/-- A later offset has a later position. -/
theorem strictMonoOn_key (text : Text) :
    StrictMonoOn (fun offset : Nat => (text.positionAt offset).key) (Set.Iic text.length) := by
  intro first _ second secondInside earlier
  obtain ⟨count, rfl⟩ := Nat.exists_eq_add_of_lt earlier
  have inside : count + 1 ≤ (text.drop first).length := by
    have within : first + count + 1 ≤ text.length := secondInside
    rw [List.length_drop]
    omega
  have moved := positionFrom_after (text.positionAt first) (count + 1) (text.drop first) inside
  rw [positionAt, Int.toNat_natCast, ← positionFrom_add] at moved
  simp only [Position.key, Prod.Lex.toLex_lt_toLex, positionAt, Int.toNat_natCast]
  rw [Nat.add_assoc]
  omega

theorem IsLine.positionAt_eq {number start column : Nat} {row text : Text}
    (line : IsLine number start row text) (inside : column ≤ row.length) :
    text.positionAt ((start + column : Nat) : Int) = ⟨number, column⟩ := by
  rw [positionAt, Int.toNat_natCast, line.positionFrom_eq 0 inside, Nat.zero_add]

theorem IsLine.offsetAt_eq {number start : Nat} {row text : Text}
    (line : IsLine number start row text) (character : Int) :
    text.offsetAt number character =
      start + min character.toNat (dropFinalReturn row).length := by
  rw [offsetAt, if_neg (by omega), Int.toNat_natCast, line.offsetBelow_eq]

/-- A carriage return at the end of a line is passed over backwards. -/
theorem offsetAt_positionAt_of_not_isAddressable {text : Text} {offset : Nat}
    (inside : offset ≤ text.length) (hidden : ¬ text.IsAddressable offset) :
    text.offsetAt (text.positionAt offset).line (text.positionAt offset).character =
      offset - 1 := by
  obtain ⟨number, start, row, column, line, bounded, rfl⟩ := exists_isLine_of_offset inside
  have short : (dropFinalReturn row).length < column := by
    rwa [line.isAddressable_iff bounded, Nat.not_le] at hidden
  have visible : row.length ≤ (dropFinalReturn row).length + 1 := by
    rw [length_dropFinalReturn]
    split <;> omega
  have found := line.offsetAt_eq column
  rw [Int.toNat_natCast, Nat.min_eq_right (by omega)] at found
  rw [line.positionAt_eq bounded, found]
  omega

/-- The position of an offset leads back to the offset, unless a carriage return stands before it
and a newline or the end of the text behind it: then it leads to that carriage return. Positions are
in the order of their offsets. -/
theorem positionAt_leads_back (text : Text) :
    (∀ offset : Nat, offset ≤ text.length →
      text.offsetAt (text.positionAt offset).line (text.positionAt offset).character =
        if text.before? offset = some '\r' ∧
            (text[offset]? = some '\n' ∨ offset = text.length) then offset - 1
        else offset) ∧
    StrictMonoOn (fun offset : Nat => (text.positionAt offset).key) (Set.Iic text.length) := by
  refine ⟨?_, strictMonoOn_key text⟩
  intro offset inside
  split
  · next hidden =>
    apply offsetAt_positionAt_of_not_isAddressable inside
    exact fun addressable => addressable.2 ⟨hidden.1, hidden.2.symm⟩
  · next visible =>
    apply offsetAt_positionAt
    exact ⟨inside, fun hidden => visible ⟨hidden.1, hidden.2.symm⟩⟩

/-- A line that ends in a carriage return and a newline, an empty line, and a last line that ends
in a carriage return. -/
def mixedEndings : Text := "a\r\n\nb\r".toList

theorem positionAt_leads_back_mixedEndings :
    mixedEndings.offsetAt (mixedEndings.positionAt 2).line
        (mixedEndings.positionAt 2).character = 1 ∧
      mixedEndings.offsetAt (mixedEndings.positionAt 4).line
        (mixedEndings.positionAt 4).character = 4 ∧
      mixedEndings.offsetAt (mixedEndings.positionAt 6).line
        (mixedEndings.positionAt 6).character = 5 :=
  ⟨(positionAt_leads_back mixedEndings).1 2 (by decide),
    (positionAt_leads_back mixedEndings).1 4 (by decide),
    (positionAt_leads_back mixedEndings).1 6 (by decide)⟩

/-! ## From positions to offsets -/

theorem offsetAt_of_count_lt {text : Text} {line : Int} (past : text.count '\n' < line)
    (character : Int) : text.offsetAt line character = text.length := by
  rw [offsetAt, if_neg (by omega), offsetBelow_of_count_lt (by omega)]

/-- A line and a column are clamped in one of three ways: to the start of the text, to the visible
part of a line, or to the end of the text. -/
theorem offsetAt_cases (text : Text) (line character : Int) :
    (line < 0 ∧ text.offsetAt line character = 0) ∨
      (∃ (number start : Nat) (row : Text), line = number ∧ IsLine number start row text ∧
        text.offsetAt line character = start + min character.toNat (dropFinalReturn row).length) ∨
      (text.count '\n' < line ∧ text.offsetAt line character = text.length) := by
  by_cases above : line < 0
  · exact .inl ⟨above, if_pos above⟩
  by_cases past : text.count '\n' < line
  · exact .inr (.inr ⟨past, offsetAt_of_count_lt past character⟩)
  obtain ⟨number, rfl⟩ := Int.eq_ofNat_of_zero_le (Int.not_lt.mp above)
  obtain ⟨start, row, found⟩ := exists_isLine (show number ≤ text.count '\n' by omega)
  exact .inr (.inl ⟨number, start, row, rfl, found, found.offsetAt_eq character⟩)

section Line

variable {number start : Nat} {row text : Text} (line : IsLine number start row text)
  (character : Int)

include line

theorem IsLine.isAddressable_offsetAt : text.IsAddressable (text.offsetAt number character) := by
  have inside : min character.toNat (dropFinalReturn row).length ≤ row.length :=
    Nat.le_trans (Nat.min_le_right _ _) (length_dropFinalReturn_le row)
  rw [line.offsetAt_eq, line.isAddressable_iff inside]
  exact Nat.min_le_right _ _

theorem IsLine.positionAt_offsetAt :
    text.positionAt (text.offsetAt number character) =
      ⟨number, min character.toNat (dropFinalReturn row).length⟩ := by
  have inside : min character.toNat (dropFinalReturn row).length ≤ row.length :=
    Nat.le_trans (Nat.min_le_right _ _) (length_dropFinalReturn_le row)
  rw [line.offsetAt_eq, line.positionAt_eq inside]

end Line

theorem offsetAt_le_length (text : Text) (line character : Int) :
    text.offsetAt line character ≤ text.length := by
  rcases offsetAt_cases text line character with
    ⟨-, start⟩ | ⟨number, start, row, rfl, found, -⟩ | ⟨-, finish⟩
  · rw [start]
    exact Nat.zero_le _
  · exact (found.isAddressable_offsetAt character).1
  · exact Nat.le_of_eq finish

/-- On lines of the text, the order of positions is the order of the offsets they lead to. -/
theorem IsLine.offsetAt_le {number other start otherStart : Nat} {row otherRow text : Text}
    {character otherCharacter : Int} (line : IsLine number start row text)
    (otherLine : IsLine other otherStart otherRow text) (lines : number ≤ other)
    (columns : number = other → character ≤ otherCharacter) :
    text.offsetAt number character ≤ text.offsetAt other otherCharacter := by
  have keys : (text.positionAt (text.offsetAt number character)).key ≤
      (text.positionAt (text.offsetAt other otherCharacter)).key := by
    rw [line.positionAt_offsetAt, otherLine.positionAt_offsetAt, Position.key, Position.key,
      Prod.Lex.toLex_le_toLex']
    refine ⟨lines, fun (same : number = other) => ?_⟩
    have rows : row = otherRow := by
      have found := line.getElem?_lines
      rw [same, otherLine.getElem?_lines] at found
      exact (Option.some.inj found).symm
    have column := columns same
    simp only [rows]
    omega
  exact ((strictMonoOn_key text).le_iff_le (offsetAt_le_length text _ _)
    (offsetAt_le_length text _ _)).mp keys

private theorem offsetAt_le_offsetAt (text : Text) {line character otherLine otherCharacter : Int}
    (ordered : toLex (line, character) ≤ toLex (otherLine, otherCharacter)) :
    text.offsetAt line character ≤ text.offsetAt otherLine otherCharacter := by
  have lines : line ≤ otherLine := (Prod.Lex.toLex_le_toLex'.mp ordered).1
  have columns : line = otherLine → character ≤ otherCharacter :=
    (Prod.Lex.toLex_le_toLex'.mp ordered).2
  rcases offsetAt_cases text line character with
    ⟨-, start⟩ | ⟨number, start, row, rfl, found, -⟩ | ⟨past, finish⟩
  · rw [start]
    exact Nat.zero_le _
  · rcases offsetAt_cases text otherLine otherCharacter with
      ⟨negative, -⟩ | ⟨other, otherStart, otherRow, rfl, otherFound, -⟩ | ⟨-, finish⟩
    · omega
    · exact found.offsetAt_le otherFound (by omega) fun same => columns (by omega)
    · rw [finish]
      exact offsetAt_le_length text _ _
  · rw [finish, offsetAt_of_count_lt (by omega)]

/-- A line and a column lead to an offset of the text that does not part a carriage return from its
newline. The position of that offset is the line with the column clamped to the visible part of the
line, the start of the text for a negative line, and its end for a line past the last one. Offsets
are in the order of the positions that lead to them. -/
theorem offsetAt_clamps (text : Text) :
    (∀ line character : Int,
      text.offsetAt line character ≤ text.length ∧
      ¬ (text.before? (text.offsetAt line character) = some '\r' ∧
        text[text.offsetAt line character]? = some '\n') ∧
      (0 ≤ line → line ≤ text.count '\n' →
        ∃ row, (lines text)[line.toNat]? = some row ∧
          text.positionAt (text.offsetAt line character) =
            ⟨line.toNat, (min (max character 0) (dropFinalReturn row).length).toNat⟩) ∧
      (line < 0 → text.positionAt (text.offsetAt line character) = ⟨0, 0⟩) ∧
      (text.count '\n' < line →
        text.positionAt (text.offsetAt line character) = text.positionAt text.length)) ∧
    ∀ line character otherLine otherCharacter : Int,
      toLex (line, character) ≤ toLex (otherLine, otherCharacter) →
        text.offsetAt line character ≤ text.offsetAt otherLine otherCharacter := by
  refine ⟨fun line character => ?_, fun _ _ _ _ ordered => offsetAt_le_offsetAt text ordered⟩
  refine ⟨offsetAt_le_length text line character, ?unparted, ?within, ?above, ?past⟩
  case unparted =>
      rcases offsetAt_cases text line character with
        ⟨-, start⟩ | ⟨number, start, row, rfl, found, -⟩ | ⟨-, finish⟩
      · rw [start]
        simp [before?]
      · intro parted
        exact (found.isAddressable_offsetAt character).2 ⟨parted.1, .inr parted.2⟩
      · rw [finish]
        simp
  case within =>
      intro atLeast atMost
      obtain ⟨number, rfl⟩ := Int.eq_ofNat_of_zero_le atLeast
      obtain ⟨start, row, found⟩ := exists_isLine (Int.ofNat_le.mp atMost)
      refine ⟨row, found.getElem?_lines, ?_⟩
      rw [found.positionAt_offsetAt, Int.toNat_natCast]
      congr 1
      omega
  case above =>
      intro negative
      rw [offsetAt, if_pos negative]
      rfl
  case past =>
      intro beyond
      rw [offsetAt_of_count_lt beyond]

theorem offsetAt_clamps_mixedEndings :
    (∃ row, (lines mixedEndings)[0]? = some row ∧
      mixedEndings.positionAt (mixedEndings.offsetAt 0 9) =
        ⟨0, (min (max (9 : Int) 0) (dropFinalReturn row).length).toNat⟩) ∧
      mixedEndings.positionAt (mixedEndings.offsetAt (-1) 9) = ⟨0, 0⟩ ∧
      mixedEndings.positionAt (mixedEndings.offsetAt 3 0) = mixedEndings.positionAt 6 ∧
      mixedEndings.offsetAt 0 9 ≤ mixedEndings.offsetAt 1 (-1) := by
  have clamps := (offsetAt_clamps mixedEndings).1
  have ordered := (offsetAt_clamps mixedEndings).2
  have below : toLex ((0 : Int), (9 : Int)) ≤ toLex (1, -1) :=
    Prod.Lex.toLex_le_toLex.mpr (.inl (by decide))
  exact ⟨(clamps 0 9).2.2.1 (by decide) (by decide), (clamps (-1) 9).2.2.2.1 (by decide),
    (clamps 3 0).2.2.2.2 (by decide), ordered 0 9 1 (-1) below⟩

-- A column past the end of a line stops before the carriage return, and past the last line a
-- carriage return at the end of the text is passed.
example : mixedEndings.offsetAt 0 9 = 1 ∧ mixedEndings.offsetAt 2 9 = 5 ∧
    mixedEndings.offsetAt 3 0 = 6 := by decide

end Text

end GrammarLens
