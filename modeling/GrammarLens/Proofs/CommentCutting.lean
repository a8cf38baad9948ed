import GrammarLens.Proofs.DottedReferences
import Mathlib.Data.List.Forall2

/-!
Contract: blanking comments in a text comes to the same as cutting them off line by line.

Owns:
- the length of a line up to its comment, and what blanking leaves of a line;
- blanking keeps length and newlines, and a second time changes nothing;
- characters at which no token goes on, and the tokens on both sides of one;
- the tokens outside comments are those of the lines cut off at their comments.

## Why no token is gained or lost

A blank and a newline belong to no token and end every name, just as the end of a text does. A line
therefore has the same tokens alone, before its comment turned to blanks, and before the next line.
-/

namespace GrammarLens

/-! ## The comment of a line -/

/-- Whether a semicolon that no backslash precedes stands at a place of a line. -/
def isRemarkAt (row : Text) (place : Nat) : Bool :=
  row[place]? == some ';' && row.before? place != some '\\'

/-- The length of a line up to the first semicolon that no backslash precedes; its whole length if
there is none. -/
def codeLength (line : Text) : Nat :=
  ((List.range line.length).find? (isRemarkAt line)).getD line.length

/-- The same as `isRemarkAt` when `previous` stands before the line. -/
def remarksAfter (previous : Option Char) (row : Text) : (place : Nat) → Bool
  | 0 => row[0]? == some ';' && previous != some '\\'
  | place + 1 => row[place + 1]? == some ';' && row[place]? != some '\\'

private theorem remarksAfter_none (line : Text) : remarksAfter none line = isRemarkAt line := by
  funext place
  cases place <;> rfl

private theorem commentStartAfter_eq_find? (previous : Option Char) (line : Text) :
    commentStartAfter previous line =
      (List.range line.length).find? (remarksAfter previous line) := by
  induction line generalizing previous with
  | nil => rfl
  | cons c rest inductionHypothesis =>
      have later : (remarksAfter previous (c :: rest)) ∘ Nat.succ = remarksAfter (some c) rest := by
        funext place
        cases place <;> rfl
      have here : remarksAfter previous (c :: rest) 0 = (c = ';' && previous != some '\\') := by
        simp [remarksAfter, Bool.beq_eq_decide_eq]
      rw [commentStartAfter, List.length_cons, List.range_succ_eq_map, List.find?_cons, here,
        List.find?_map, later, inductionHypothesis (some c)]
      cases c = ';' && previous != some '\\' <;> rfl

theorem commentStart?_eq_find? (line : Text) :
    commentStart? line = (List.range line.length).find? (isRemarkAt line) := by
  rw [commentStart?, commentStartAfter_eq_find?, remarksAfter_none]

private theorem codeLength_eq (line : Text) :
    codeLength line = (commentStart? line).getD line.length := by
  rw [commentStart?_eq_find?, codeLength]

theorem codeLength_le (line : Text) : codeLength line ≤ line.length := by
  rw [codeLength]
  cases first : (List.range line.length).find? (isRemarkAt line) with
  | none => exact Nat.le_refl _
  | some place => exact Nat.le_of_lt (List.mem_range.mp (List.mem_of_find?_eq_some first))

private theorem not_isRemarkAt {line : Text} {place : Nat} (earlier : place < codeLength line) :
    isRemarkAt line place = false := by
  rw [codeLength] at earlier
  cases first : (List.range line.length).find? (isRemarkAt line) with
  | none =>
      rw [first] at earlier
      simpa using List.find?_eq_none.mp first place (List.mem_range.mpr earlier)
  | some found =>
      rw [first] at earlier
      simpa using (List.find?_range_eq_some.mp first).2.2 place earlier

/-- What blanking makes of a line: its code, and blanks up to its length. -/
theorem blankLineComment_eq (line : Text) :
    blankLineComment line =
      line.take (codeLength line) ++ List.replicate (line.length - codeLength line) ' ' := by
  rw [blankLineComment, codeLength_eq]
  cases commentStart? line with
  | some start => rfl
  | none => simp

theorem length_blankLineComment (line : Text) : (blankLineComment line).length = line.length := by
  have bounded := codeLength_le line
  rw [blankLineComment_eq, List.length_append, List.length_take, List.length_replicate]
  omega

theorem free_blankLineComment {line : Text} (free : '\n' ∉ line) :
    '\n' ∉ blankLineComment line := by
  rw [blankLineComment_eq, List.mem_append, not_or]
  refine ⟨fun member => free (List.mem_of_mem_take member), fun member => ?_⟩
  simpa using List.eq_of_mem_replicate member

private theorem isRemarkAt_take_append {row : Text} {length place : Nat}
    (inside : length ≤ row.length) (earlier : place < length) (rest : Text) :
    isRemarkAt (row.take length ++ rest) place = isRemarkAt row place := by
  have kept : ∀ index < length, (row.take length ++ rest)[index]? = row[index]? := by
    intro index short
    rw [List.getElem?_append_left (by rw [List.length_take]; omega),
      List.getElem?_take_of_lt short]
  have neighbour : Text.before? (row.take length ++ rest) place = row.before? place := by
    cases place with
    | zero => rfl
    | succ place => exact kept place (by omega)
  rw [isRemarkAt, isRemarkAt, kept place earlier, neighbour]

private theorem commentStart?_blankLineComment (line : Text) :
    commentStart? (blankLineComment line) = none := by
  have bounded := codeLength_le line
  rw [commentStart?_eq_find?, List.find?_eq_none, length_blankLineComment]
  intro place member
  have inside := List.mem_range.mp member
  rw [blankLineComment_eq]
  by_cases code : place < codeLength line
  · rw [isRemarkAt_take_append bounded code, not_isRemarkAt code]
    simp
  · have blank : (line.take (codeLength line) ++
        List.replicate (line.length - codeLength line) ' ')[place]? = some ' ' := by
      have taken : (line.take (codeLength line)).length = codeLength line := by
        rw [List.length_take]
        omega
      rw [List.getElem?_append_right (by omega), taken, List.getElem?_replicate_of_lt (by omega)]
    simp [isRemarkAt, blank]

private theorem blankLineComment_blankLineComment (line : Text) :
    blankLineComment (blankLineComment line) = blankLineComment line := by
  conv_lhs => rw [blankLineComment, commentStart?_blankLineComment]

/-! ## Length and newlines -/

/-- Two texts of one length with newlines at the same places. -/
def SameBreaks : Text → Text → Prop := List.Forall₂ fun c d => c = '\n' ↔ d = '\n'

namespace SameBreaks

private theorem of_free {left right : Text} (length : left.length = right.length)
    (leftFree : '\n' ∉ left) (rightFree : '\n' ∉ right) : SameBreaks left right := by
  apply List.forall₂_of_length_eq_of_get length
  intro place leftInside rightInside
  have leftOther : left.get ⟨place, leftInside⟩ ≠ '\n' :=
    fun newline => leftFree (newline ▸ List.get_mem left _)
  have rightOther : right.get ⟨place, rightInside⟩ ≠ '\n' :=
    fun newline => rightFree (newline ▸ List.get_mem right _)
  exact iff_of_false leftOther rightOther

theorem joinLines {pieces others : List Text} (same : List.Forall₂ SameBreaks pieces others) :
    SameBreaks (Text.joinLines pieces) (Text.joinLines others) := by
  induction same with
  | nil => exact .nil
  | @cons piece other pieces others here later inductionHypothesis =>
      cases later with
      | nil => exact here
      | cons next rest =>
          exact List.rel_append here (.cons Iff.rfl inductionHypothesis)

private theorem getElem?_iff {left right : Text} (same : SameBreaks left right) (place : Nat) :
    left[place]? = some '\n' ↔ right[place]? = some '\n' := by
  induction same generalizing place with
  | nil => rfl
  | cons here later inductionHypothesis =>
      cases place with
      | zero => simpa using here
      | succ place => simpa using inductionHypothesis place

end SameBreaks

private theorem sameBreaks_blankComments (text : Text) : SameBreaks (blankComments text) text := by
  have lineByLine : List.Forall₂ SameBreaks ((Text.lines text).map blankLineComment)
      (Text.lines text) := by
    rw [List.forall₂_map_left_iff, List.forall₂_same]
    intro line member
    have free := Text.free_of_mem_lines member
    exact .of_free (length_blankLineComment line) (free_blankLineComment free) free
  have joined := SameBreaks.joinLines lineByLine
  rwa [Text.joinLines_lines] at joined

private theorem blankComments_blankComments (text : Text) :
    blankComments (blankComments text) = blankComments text := by
  have again : Text.lines (blankComments text) = (Text.lines text).map blankLineComment := by
    apply Text.lines_joinLines (by simpa using Text.lines_ne_nil text)
    intro piece member
    obtain ⟨line, present, rfl⟩ := List.mem_map.mp member
    exact free_blankLineComment (Text.free_of_mem_lines present)
  have unchanged : blankLineComment ∘ blankLineComment = blankLineComment :=
    funext blankLineComment_blankLineComment
  rw [blankComments, again, List.map_map, unchanged]
  rfl

/-! ## Gaps between tokens -/

/-- A character that belongs to no token and at which no name goes on. -/
def IsGap (c : Char) : Prop :=
  isNameChar c = false ∧ TokenKind.ofChar? c = none ∧ c ≠ '#' ∧ c ≠ '.'

instance (c : Char) : Decidable (IsGap c) :=
  inferInstanceAs (Decidable (_ ∧ _ ∧ _ ∧ _))

theorem leadingToken?_of_other {c : Char} {rest : Text} (other : isNameChar c = false)
    (unstructured : TokenKind.ofChar? c = none)
    (untagged : c = '#' → ∀ d, rest.head? = some d → isNameChar d = false) :
    leadingToken? (c :: rest) = none := by
  have noTag : (c = '#' && rest.head?.any isNameChar) = false := by
    by_cases hash : c = '#'
    · cases first : rest.head? with
      | none => simp
      | some d => simp [untagged hash d first]
    · simp [hash]
  rw [leadingToken?, other, noTag, unstructured]
  rfl

namespace IsGap

variable {gap : Char} (parts : IsGap gap)

include parts

theorem tokensFrom_cons (offset : Nat) (rest : Text) :
    tokensFrom offset (gap :: rest) = tokensFrom (offset + 1) rest :=
  tokensFrom_gap (leadingToken?_of_other parts.1 parts.2.1 fun hash => absurd hash parts.2.2.1)
    offset

private theorem tokensFrom_replicate (offset count : Nat) :
    tokensFrom offset (List.replicate count gap) = [] := by
  induction count generalizing offset with
  | zero => rfl
  | succ count inductionHypothesis =>
      rw [List.replicate_succ, parts.tokensFrom_cons, inductionHypothesis]

theorem head?_append {text : Text} (ends : ∀ c, text.head? = some c → isNameChar c = false)
    (rest : Text) : ∀ c, (text ++ gap :: rest).head? = some c → isNameChar c = false := by
  intro c first
  cases text with
  | nil => exact Option.some.inj first ▸ parts.1
  | cons d others => exact ends c first

private theorem nameEnds_append {text : Text} (ends : NameEnds text) (rest : Text) :
    NameEnds (text ++ gap :: rest) := by
  refine ⟨parts.head?_append ends.1 rest, ?_⟩
  intro c later shape
  match text with
  | [] => exact absurd (List.cons.inj shape).1 parts.2.2.2
  | [d] => exact (List.cons.inj (List.cons.inj shape).2).1 ▸ parts.1
  | d :: e :: others =>
      obtain ⟨rfl, tail⟩ := List.cons.inj shape
      obtain ⟨rfl, -⟩ := List.cons.inj tail
      exact ends.2 e others rfl

private theorem isLexeme_append {text lexeme : Text} {kind : TokenKind}
    (shape : IsLexeme text kind lexeme)
    (rest : Text) : IsLexeme (text ++ gap :: rest) kind lexeme := by
  cases shape with
  | identifier dotted ends => exact .identifier dotted (parts.nameEnds_append ends rest)
  | tag dotted ends => exact .tag dotted (parts.nameEnds_append ends rest)
  | structural known => exact .structural known

private theorem leadingToken?_append {c : Char} {text : Text}
    (none : leadingToken? (c :: text) = none)
    (rest : Text) : leadingToken? (c :: (text ++ gap :: rest)) = .none := by
  obtain ⟨other, unstructured, untagged⟩ := leadingToken?_eq_none none
  exact leadingToken?_of_other other unstructured fun hash =>
    parts.head?_append (untagged hash) rest

/-- The tokens before a gap and those behind it do not depend on each other. -/
theorem tokensFrom_append (offset : Nat) (text rest : Text) :
    tokensFrom offset (text ++ gap :: rest) =
      tokensFrom offset text ++ tokensFrom (offset + text.length + 1) rest := by
  have lexes := lexes_tokensFrom offset text
  generalize tokensFrom offset text = tokens at lexes
  induction lexes with
  | nil => exact parts.tokensFrom_cons _ rest
  | @gap offset c text tokens none later inductionHypothesis =>
      rw [List.cons_append, tokensFrom_gap (parts.leadingToken?_append none rest),
        inductionHypothesis, List.length_cons]
      congr 2
      omega
  | @token offset kind lexeme text tokens shape later inductionHypothesis =>
      rw [List.append_assoc, GrammarLens.tokensFrom_append (parts.isLexeme_append shape rest),
        inductionHypothesis, List.length_append, List.cons_append]
      congr 3
      omega

end IsGap

/-! ## Tokens line by line -/

/-- The token with its offset counted from a place that lies `start` characters further back. -/
def Token.shift (start : Nat) (token : Token) : Token :=
  { token with offset := start + token.offset }

theorem Lexes.tokensFrom_add {offset : Nat} {text : Text} {tokens : List Token}
    (lexes : Lexes offset text tokens) (start : Nat) :
    tokensFrom (start + offset) text = tokens.map (Token.shift start) := by
  induction lexes with
  | nil => rfl
  | gap none later inductionHypothesis =>
      rw [tokensFrom_gap none, Nat.add_assoc, inductionHypothesis]
  | token shape later inductionHypothesis =>
      rw [tokensFrom_append shape, Nat.add_assoc, inductionHypothesis]
      rfl

private theorem tokensFrom_eq_shift (start : Nat) (text : Text) :
    tokensFrom start text = (tokenize text).map (Token.shift start) :=
  (lexes_tokensFrom 0 text).tokensFrom_add start

namespace Text

/-- Lines that stand one behind the other from an offset on, each with the offset at which it
starts. -/
def placedFrom (offset : Nat) : List Text → List (Nat × Text)
  | [] => []
  | line :: others => (offset, line) :: placedFrom (offset + line.length + 1) others

/-- The lines of a text, each with the offset at which it starts. -/
def placedLines (text : Text) : List (Nat × Text) := placedFrom 0 (lines text)

private theorem exists_split_of_mem_placedFrom {offset start : Nat} {pieces : List Text}
    {line : Text} (member : (start, line) ∈ placedFrom offset pieces) :
    ∃ before rest, joinLines pieces = before ++ line ++ rest ∧ start = offset + before.length := by
  induction pieces generalizing offset with
  | nil => simp [placedFrom] at member
  | cons piece others inductionHypothesis =>
      rw [placedFrom, List.mem_cons] at member
      rcases member with here | later
      · obtain ⟨rfl, rfl⟩ := Prod.mk.inj here
        by_cases last : others = []
        · exact ⟨[], [], by rw [last]; simp [joinLines], rfl⟩
        · exact ⟨[], _, joinLines_cons line last, rfl⟩
      · obtain ⟨before, rest, shape, place⟩ := inductionHypothesis later
        have occupied : others ≠ [] := by
          rintro rfl
          simp [placedFrom] at later
        refine ⟨piece ++ '\n' :: before, rest, ?_, ?_⟩
        · rw [joinLines_cons piece occupied, shape]
          simp
        · rw [place, List.length_append, List.length_cons]
          omega

private theorem placedFrom_map {change : Text → Text}
    (length : ∀ line, (change line).length = line.length) (offset : Nat) (pieces : List Text) :
    placedFrom offset (pieces.map change) =
      (placedFrom offset pieces).map fun (start, line) => (start, change line) := by
  induction pieces generalizing offset with
  | nil => rfl
  | cons piece others inductionHypothesis =>
      rw [List.map_cons, placedFrom, placedFrom, List.map_cons, length, inductionHypothesis]

end Text

/-- No token reaches over a newline. -/
theorem tokensFrom_joinLines (offset : Nat) (pieces : List Text) :
    tokensFrom offset (Text.joinLines pieces) =
      (Text.placedFrom offset pieces).flatMap fun (start, line) => tokensFrom start line := by
  have newline : IsGap '\n' := by decide
  induction pieces generalizing offset with
  | nil => rfl
  | cons piece others inductionHypothesis =>
      rw [Text.placedFrom, List.flatMap_cons]
      by_cases last : others = []
      · rw [last]
        exact (List.append_nil _).symm
      · rw [Text.joinLines_cons piece last, newline.tokensFrom_append, inductionHypothesis]

private theorem tokensFrom_blankLineComment (offset : Nat) (line : Text) :
    tokensFrom offset (blankLineComment line) =
      tokensFrom offset (line.take (codeLength line)) := by
  have blank : IsGap ' ' := by decide
  rw [blankLineComment_eq]
  cases line.length - codeLength line with
  | zero => rw [List.replicate_zero, List.append_nil]
  | succ count =>
      rw [List.replicate_succ, blank.tokensFrom_append, blank.tokensFrom_replicate, List.append_nil]

theorem tokenizeCode_eq_flatMap (text : Text) :
    tokenizeCode text =
      text.placedLines.flatMap fun (start, line) =>
        (tokenize (line.take (codeLength line))).map (Token.shift start) := by
  calc tokenizeCode text
    _ = (Text.placedFrom 0 ((Text.lines text).map blankLineComment)).flatMap
          fun (start, line) => tokensFrom start line :=
        tokensFrom_joinLines 0 _
    _ = text.placedLines.flatMap fun (start, line) => tokensFrom start (blankLineComment line) := by
        rw [Text.placedFrom_map length_blankLineComment, List.flatMap_map]
        rfl
    _ = text.placedLines.flatMap fun (start, line) =>
          (tokenize (line.take (codeLength line))).map (Token.shift start) := by
        simp only [tokensFrom_blankLineComment]
        simp only [tokensFrom_eq_shift]

/-- A token outside comments stands in the text as it stands in its line. -/
theorem slice_of_mem_tokenizeCode {text : Text} {token : Token}
    (member : token ∈ tokenizeCode text) : text.slice token.offset token.finish = token.text := by
  rw [tokenizeCode_eq_flatMap, List.mem_flatMap] at member
  obtain ⟨⟨start, line⟩, placed, inLine⟩ := member
  obtain ⟨found, present, rfl⟩ := List.mem_map.mp inLine
  obtain ⟨before, rest, shape, rfl⟩ := Text.exists_split_of_mem_placedFrom placed
  obtain ⟨earlier, later, cut, place, -⟩ :=
    (isTokenization_tokenize (line.take (codeLength line))).stands found present
  obtain ⟨hidden, split⟩ : ∃ hidden, line = earlier ++ found.text ++ later ++ hidden :=
    ⟨line.drop (codeLength line), by rw [← cut, List.take_append_drop]⟩
  have whole : text = before ++ earlier ++ found.text ++ (later ++ hidden ++ rest) := by
    rw [← Text.joinLines_lines text, shape, split]
    simp
  have stands := Text.slice_append (before ++ earlier) found.text (later ++ hidden ++ rest)
  rw [← whole, List.length_append, ← place] at stands
  rw [Token.finish, Token.shift, Nat.zero_add]
  exact stands

/-- The tokens outside comments are those of each line up to its first semicolon that no backslash
precedes, moved to where the line starts, and they stand in the text itself. Blanking keeps the
length and the newlines of a text, and done again it changes nothing. -/
theorem tokenizeCode_cuts_lines (text : Text) :
    tokenizeCode text =
      text.placedLines.flatMap (fun (start, line) =>
        (tokenize (line.take (codeLength line))).map (Token.shift start)) ∧
    (∀ token ∈ tokenizeCode text, text.slice token.offset token.finish = token.text) ∧
    (blankComments text).length = text.length ∧
    (∀ place : Nat, (blankComments text)[place]? = some '\n' ↔ text[place]? = some '\n') ∧
    blankComments (blankComments text) = blankComments text :=
  ⟨tokenizeCode_eq_flatMap text, fun _ member => slice_of_mem_tokenizeCode member,
    (sameBreaks_blankComments text).length_eq, (sameBreaks_blankComments text).getElem?_iff,
    blankComments_blankComments text⟩

/-- An escaped semicolon, a comment with a token in it, and a second line. -/
def remarkedText : Text := "a\\;b.c;d\n#e ; f".toList

theorem tokenizeCode_cuts_lines_remarkedText :
    ⟨.tag, "#e".toList, 9⟩ ∈ tokenizeCode remarkedText ∧ remarkedText.slice 9 11 = "#e".toList := by
  have member : ⟨.tag, "#e".toList, 9⟩ ∈ tokenizeCode remarkedText := by decide
  exact ⟨member, (tokenizeCode_cuts_lines remarkedText).2.1 _ member⟩

example : blankComments remarkedText = "a\\;b.c  \n#e    ".toList ∧
    (tokenizeCode remarkedText).map Token.text = ["a".toList, "b.c".toList, "#e".toList] := by
  decide

end GrammarLens
