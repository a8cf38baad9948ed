import GrammarLens.Proofs.Addressing
import GrammarLens.Proofs.PathResolution

/-!
Contract: the lines of a text, and where they stand in it.

Owns:
- taking a text apart at its newlines and putting it together again;
- a line of a text, by its number, the offset at which it starts and its characters;
- every line number up to the count of newlines, and every offset, has its line;
- the way from a column of a line to an offset and back, and which columns can be addressed.

Does not own: what a position outside the text stands for.

## Why a line is described from the front

Both conversions walk over the text from its start, one newline after the other. A line is therefore
given by the way to it: it is the first one, or it is a line of what follows the first newline. Each
conversion then needs one step for a line that is passed and one for the line that is reached.
-/

namespace GrammarLens

namespace Text

/-! ## Newlines -/

theorem lines_eq_splitAtChar (text : Text) : lines text = splitAtChar '\n' text := by
  induction text with
  | nil => rfl
  | cons c rest inductionHypothesis => rw [lines, splitAtChar, inductionHypothesis]

theorem lines_ne_nil (text : Text) : lines text ≠ [] := by
  rw [lines_eq_splitAtChar]
  exact splitAtChar_ne_nil '\n' text

theorem lines_of_free {line : Text} (free : '\n' ∉ line) : lines line = [line] := by
  rw [lines_eq_splitAtChar, splitAtChar_eq_singleton free]

/-- The first newline ends the first line. -/
theorem lines_append {line : Text} (free : '\n' ∉ line) (rest : Text) :
    lines (line ++ '\n' :: rest) = line :: lines rest := by
  rw [lines_eq_splitAtChar, splitAtChar_append, splitAtChar_eq_singleton free,
    ← lines_eq_splitAtChar, List.singleton_append]

theorem free_of_mem_lines {text line : Text} (member : line ∈ lines text) : '\n' ∉ line := by
  rw [lines_eq_splitAtChar] at member
  exact not_mem_piece_of_splitAtChar member

theorem joinLines_cons (line : Text) {others : List Text} (occupied : others ≠ []) :
    joinLines (line :: others) = line ++ '\n' :: joinLines others := by
  cases others with
  | nil => exact absurd rfl occupied
  | cons next others => rfl

theorem lines_joinLines {pieces : List Text} (occupied : pieces ≠ [])
    (free : ∀ piece ∈ pieces, '\n' ∉ piece) : lines (joinLines pieces) = pieces := by
  induction pieces with
  | nil => exact absurd rfl occupied
  | cons piece others inductionHypothesis =>
      have pieceFree := free piece List.mem_cons_self
      cases others with
      | nil => exact lines_of_free pieceFree
      | cons next others =>
          have tail := inductionHypothesis (by simp)
            (fun other member => free other (List.mem_cons_of_mem _ member))
          rw [joinLines, lines_append pieceFree, tail]

private theorem joinLines_consToFirst (c : Char) {lines : List Text} (occupied : lines ≠ []) :
    joinLines (consToFirst c lines) = c :: joinLines lines := by
  obtain ⟨line, others, rfl⟩ := List.exists_cons_of_ne_nil occupied
  cases others <;> rfl

theorem joinLines_lines (text : Text) : joinLines (lines text) = text := by
  induction text with
  | nil => rfl
  | cons c rest inductionHypothesis =>
      rw [lines]
      split
      · next newline =>
        rw [joinLines_cons [] (lines_ne_nil rest), inductionHypothesis, newline]
        rfl
      · rw [joinLines_consToFirst c (lines_ne_nil rest), inductionHypothesis]

private theorem mem_joinLines {pieces : List Text} {piece : Text} (member : piece ∈ pieces)
    {c : Char} (inside : c ∈ piece) : c ∈ joinLines pieces := by
  induction pieces with
  | nil => simp at member
  | cons first others inductionHypothesis =>
      cases others with
      | nil => rwa [List.mem_singleton.mp member] at inside
      | cons next others =>
          rw [joinLines, List.mem_append, List.mem_cons]
          rcases List.mem_cons.mp member with same | later
          · exact .inl (same ▸ inside)
          · exact .inr (.inr (inductionHypothesis later))

theorem mem_of_mem_lines {text line : Text} (member : line ∈ lines text) {c : Char}
    (inside : c ∈ line) : c ∈ text := by
  have joined := mem_joinLines member inside
  rwa [joinLines_lines] at joined

/-! ## Lines by number -/

/-- A line of a text: its number, which counts the newlines before it, the offset at which it
starts, and its characters up to the next newline or to the end of the text. -/
inductive IsLine : (number start : Nat) → (row text : Text) → Prop
  | first {row rest : Text} (free : '\n' ∉ row) (ends : ∀ c, rest.head? = some c → c = '\n') :
      IsLine 0 0 row (row ++ rest)
  | next {line row text : Text} {number start : Nat} (free : '\n' ∉ line)
      (found : IsLine number start row text) :
      IsLine (number + 1) (line.length + 1 + start) row (line ++ '\n' :: text)

theorem isLine_first (text : Text) : IsLine 0 0 (text.takeWhile (· != '\n')) text := by
  have free : '\n' ∉ text.takeWhile (· != '\n') := by
    intro member
    simpa using List.mem_takeWhile_imp member
  have ends : ∀ c, (text.dropWhile (· != '\n')).head? = some c → c = '\n' := by
    intro c next
    simpa using head?_dropWhile next
  have line := IsLine.first free ends
  rwa [List.takeWhile_append_dropWhile] at line

private theorem count_append_newline {line : Text} (free : '\n' ∉ line) (rest : Text) :
    (line ++ '\n' :: rest).count '\n' = rest.count '\n' + 1 := by
  rw [List.count_append, List.count_eq_zero.mpr free, List.count_cons_self, Nat.zero_add]

/-- Every number up to the count of newlines is that of a line. -/
theorem exists_isLine {text : Text} {number : Nat} (within : number ≤ text.count '\n') :
    ∃ start row, IsLine number start row text := by
  induction number generalizing text with
  | zero => exact ⟨0, _, isLine_first text⟩
  | succ number inductionHypothesis =>
      have newline : '\n' ∈ text := List.count_pos_iff.mp (by omega)
      obtain ⟨line, rest, rfl, free⟩ := List.eq_append_cons_of_mem newline
      rw [count_append_newline free] at within
      obtain ⟨start, row, found⟩ := inductionHypothesis (Nat.le_of_succ_le_succ within)
      exact ⟨_, row, .next free found⟩

/-- Every offset lies on a line, at its end at the latest. -/
theorem exists_isLine_of_offset {text : Text} {offset : Nat} (inside : offset ≤ text.length) :
    ∃ number start row column, IsLine number start row text ∧ column ≤ row.length ∧
      offset = start + column := by
  by_cases newline : '\n' ∈ text.take offset
  · obtain ⟨line, later, taken, free⟩ := List.eq_append_cons_of_mem newline
    have reached : offset = line.length + 1 + later.length := by
      have length := congrArg List.length taken
      rw [List.length_take, Nat.min_eq_left inside, List.length_append, List.length_cons] at length
      omega
    have split : text = line ++ '\n' :: (later ++ text.drop offset) := by
      rw [← List.cons_append, ← List.append_assoc, ← taken, List.take_append_drop]
    have within : later.length ≤ (later ++ text.drop offset).length := by
      rw [List.length_append]
      omega
    have shorter : (later ++ text.drop offset).length < text.length := by
      rw [List.length_append, List.length_drop]
      omega
    obtain ⟨number, start, row, column, found, bounded, same⟩ := exists_isLine_of_offset within
    have line := IsLine.next free found
    rw [← split] at line
    exact ⟨number + 1, _, row, column, line, bounded, by omega⟩
  · have passed : ∀ c ∈ text.take offset, c != '\n' := by
      intro c member
      have different : c ≠ '\n' := fun same => newline (same ▸ member)
      simpa using different
    have bounded : offset ≤ (text.takeWhile (· != '\n')).length := by
      rw [← List.take_append_drop offset text, List.takeWhile_append_of_pos passed,
        List.length_append, List.length_take, Nat.min_eq_left inside]
      omega
    exact ⟨0, 0, _, offset, isLine_first text, bounded, (Nat.zero_add offset).symm⟩
termination_by text.length

/-- The way down to a line leads over the lines before it. -/
theorem offsetBelow_append {line : Text} (free : '\n' ∉ line) (character number : Nat)
    (text : Text) :
    offsetBelow character (number + 1) (line ++ '\n' :: text) =
      line.length + 1 + offsetBelow character number text := by
  induction line with
  | nil =>
      rw [List.nil_append, offsetBelow, if_pos rfl, List.length_nil]
      omega
  | cons c line inductionHypothesis =>
      rw [List.mem_cons, not_or] at free
      rw [List.cons_append, offsetBelow, if_neg (Ne.symm free.1), inductionHypothesis free.2,
        List.length_cons]
      omega

/-- There is nothing below the last line but the end of the text. -/
theorem offsetBelow_of_count_lt {text : Text} {number : Nat} (past : text.count '\n' < number)
    (character : Nat) : offsetBelow character number text = text.length := by
  induction text generalizing number with
  | nil =>
      cases number with
      | zero => omega
      | succ number => rfl
  | cons c rest inductionHypothesis =>
      cases number with
      | zero => omega
      | succ number =>
          rw [offsetBelow, List.length_cons]
          split
          · next newline =>
            rw [newline, List.count_cons_self] at past
            rw [inductionHypothesis (by omega)]
          · next other =>
            rw [List.count_cons_of_ne other] at past
            rw [inductionHypothesis past]

namespace IsLine

variable {number start : Nat} {row text : Text}

/-- A line stands between the start of the text or a newline and a newline or the end of the
text. -/
theorem exists_split (line : IsLine number start row text) :
    ∃ before rest, text = before ++ row ++ rest ∧ before.length = start ∧ '\n' ∉ row ∧
      (∀ c, before.getLast? = some c → c = '\n') ∧ ∀ c, rest.head? = some c → c = '\n' := by
  induction line with
  | @first row rest free ends => exact ⟨[], rest, rfl, rfl, free, by simp, ends⟩
  | @next line row text number start free found inductionHypothesis =>
      obtain ⟨before, rest, shape, length, rowFree, begins, ends⟩ := inductionHypothesis
      refine ⟨line ++ '\n' :: before, rest, ?_, ?_, rowFree, ?_, ends⟩
      · rw [shape, List.append_assoc line, List.append_assoc line]
        rfl
      · rw [List.length_append, List.length_cons, length]
        omega
      · intro c last
        rw [List.getLast?_append_of_ne_nil _ (by simp), List.getLast?_cons] at last
        cases ending : before.getLast? with
        | none => simpa [ending] using last.symm
        | some d =>
            obtain rfl : d = c := by simpa [ending] using last
            exact begins d ending

theorem getElem?_lines (line : IsLine number start row text) :
    (lines text)[number]? = some row := by
  induction line with
  | @first row rest free ends =>
      cases rest with
      | nil => rw [List.append_nil, lines_of_free free, List.getElem?_cons_zero]
      | cons c others => rw [ends c rfl, lines_append free, List.getElem?_cons_zero]
  | next free found inductionHypothesis =>
      rw [lines_append free, List.getElem?_cons_succ, inductionHypothesis]

theorem positionFrom_eq (line : IsLine number start row text) (above : Nat) {column : Nat}
    (inside : column ≤ row.length) :
    positionFrom ⟨above, 0⟩ (start + column) text = ⟨above + number, column⟩ := by
  induction line generalizing above with
  | @first row rest free ends =>
      have taken : '\n' ∉ (row ++ rest).take column := by
        rw [List.take_append_of_le_length inside]
        exact fun member => free (List.mem_of_mem_take member)
      have within : 0 + column ≤ (row ++ rest).length := by
        rw [List.length_append]
        omega
      rw [Nat.zero_add] at within ⊢
      rw [positionFrom_of_free _ within taken, Nat.zero_add, Nat.add_zero]
  | @next line row text number start free found inductionHypothesis =>
      have passed : positionFrom ⟨above, 0⟩ line.length (line ++ '\n' :: text) =
          ⟨above, line.length⟩ := by
        rw [positionFrom_append, positionFrom_of_free _ (Nat.le_refl _) (by rwa [List.take_length]),
          Nat.zero_add]
      rw [Nat.add_assoc, Nat.add_assoc, positionFrom_add, passed, List.drop_left, Nat.add_comm 1,
        positionFrom]
      have next := inductionHypothesis (above + 1) inside
      rwa [Nat.add_right_comm, Nat.add_assoc above number] at next

theorem offsetBelow_eq (line : IsLine number start row text) (character : Nat) :
    offsetBelow character number text = start + min character (dropFinalReturn row).length := by
  induction line with
  | @first row rest free ends =>
      have visible : (row ++ rest).takeWhile (· != '\n') = row := by
        rw [takeWhile_append_of_stops fun c next => by simp [ends c next],
          List.takeWhile_eq_self_iff]
        intro c member
        have different : c ≠ '\n' := fun same => free (same ▸ member)
        simpa using different
      rw [offsetBelow, firstLine, visible, Nat.zero_add]
  | next free found inductionHypothesis =>
      rw [offsetBelow_append free, inductionHypothesis, ← Nat.add_assoc]

/-! ## Columns that can be addressed -/

variable {column : Nat}

/-- Of the columns of a line, the last one alone stands at a newline or at the end of the text. -/
theorem ended_iff (line : IsLine number start row text) (inside : column ≤ row.length) :
    start + column = text.length ∨ text[start + column]? = some '\n' ↔ column = row.length := by
  obtain ⟨before, rest, rfl, rfl, free, -, ends⟩ := line.exists_split
  rw [List.append_assoc, List.getElem?_append_right (Nat.le_add_right _ _),
    Nat.add_sub_cancel_left, List.length_append, List.length_append]
  constructor
  · intro ended
    by_contra short
    have within : column < row.length := by omega
    rw [List.getElem?_append_left within, List.getElem?_eq_getElem within] at ended
    rcases ended with last | newline
    · omega
    · exact free (Option.some.inj newline ▸ List.getElem_mem within)
  · intro last
    rw [last, List.getElem?_append_right (Nat.le_refl _), Nat.sub_self, ← List.head?_eq_getElem?]
    cases rest with
    | nil => exact .inl rfl
    | cons c others => exact .inr (congrArg some (ends c rfl))

private theorem before?_finish (line : IsLine number start row text) :
    text.before? (start + row.length) = some '\r' ↔ row.getLast? = some '\r' := by
  obtain ⟨before, rest, rfl, rfl, -, begins, -⟩ := line.exists_split
  rw [← List.length_append, before?_append, List.getLast?_append]
  cases last : row.getLast? with
  | some c => rfl
  | none =>
      have newline : before.getLast? ≠ some '\r' := fun ended => by simpa using begins _ ended
      simpa using newline

end IsLine

theorem length_dropFinalReturn (row : Text) :
    (dropFinalReturn row).length =
      if row.getLast? = some '\r' then row.length - 1 else row.length := by
  unfold dropFinalReturn
  split
  · exact List.length_dropLast
  · rfl

theorem length_dropFinalReturn_le (row : Text) : (dropFinalReturn row).length ≤ row.length := by
  rw [length_dropFinalReturn]
  split <;> omega

/-- The columns of a line that have a position of their own are those of its visible part. -/
theorem IsLine.isAddressable_iff {number start column : Nat} {row text : Text}
    (line : IsLine number start row text) (inside : column ≤ row.length) :
    text.IsAddressable (start + column) ↔ column ≤ (dropFinalReturn row).length := by
  have within : start + column ≤ text.length := by
    obtain ⟨before, rest, rfl, rfl, -⟩ := line.exists_split
    rw [List.length_append, List.length_append]
    omega
  rw [IsAddressable, line.ended_iff inside, length_dropFinalReturn]
  -- Only the end of the line can fail to be addressed, and it does behind a carriage return.
  by_cases last : column = row.length
  · subst last
    rw [line.before?_finish]
    by_cases returned : row.getLast? = some '\r'
    · have occupied : 0 < row.length := List.length_pos_of_mem (List.mem_of_getLast? returned)
      simp only [returned, if_true, and_self, not_true_eq_false, and_false, false_iff]
      omega
    · simp [returned, within]
  · have bounded : column ≤ row.length - 1 := by omega
    simp only [last, and_false, not_false_eq_true, and_true, within, true_iff]
    split
    · exact bounded
    · exact inside

end Text

end GrammarLens
