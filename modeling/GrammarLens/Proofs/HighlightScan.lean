import GrammarLens.Highlight
import GrammarLens.Proofs.Addressing

/-!
Contract: highlighting described as one pass over a whole text.

Owns:
- the modes of a text, and a scanner that reads it from left to right with lookahead for the
  delimiter of documentation only;
- which runs the scanner gives a span, in terms of what stands before them;
- its spans stand in order and do not overlap.

Does not own: that line by line classification gives the same spans.
-/

namespace GrammarLens

namespace Highlight

/-! ## The scanner -/

/-- What the characters of a text are part of. -/
inductive Mode where
  | code
  | doc
  | comment
deriving DecidableEq, Repr

/-- The mode behind a delimiter, which means nothing in a comment. -/
def Mode.toggled : Mode → Mode
  | code => doc
  | doc => code
  | comment => comment

/-- The mode at the start of the next line. Documentation goes on there, a comment does not. -/
def Mode.nextLine : Mode → Mode
  | code => code
  | doc => doc
  | comment => code

/-- Whether a character is a semicolon that no backslash precedes. -/
def isRemark (previous : Option Char) (c : Char) : Bool := c = ';' && previous != some '\\'

/-- A place between two characters of a text, with what has to be known of the text before it. -/
structure Scanner where
  mode : Mode
  /-- Whether a semicolon that no backslash precedes stands earlier on the line. -/
  remarked : Bool
  /-- The character before, if there is one on the line. -/
  previous : Option Char
  position : Position
deriving DecidableEq, Repr

namespace Scanner

def start : Scanner := ⟨.code, false, none, ⟨0, 0⟩⟩

/-- Reads one character that is not part of a delimiter. -/
def step (scanner : Scanner) (c : Char) : Scanner :=
  if c = '\n' then ⟨scanner.mode.nextLine, false, none, scanner.position.after c⟩
  else
    { mode := if scanner.mode = .code && isRemark scanner.previous c then .comment else scanner.mode
      remarked := scanner.remarked || isRemark scanner.previous c
      previous := some c
      position := scanner.position.after c }

/-- Reads the three quotes of a delimiter. -/
def pass (scanner : Scanner) : Scanner :=
  { scanner with
    mode := scanner.mode.toggled
    previous := some '"'
    position := ⟨scanner.position.line, scanner.position.character + 3⟩ }

/-- Reads a text. What follows the text plays no part, so this is the scanner's way through a longer
text wherever no quote comes next, and a run starts with none. -/
def after : Scanner → Text → Scanner
  | scanner, [] => scanner
  | scanner, '"' :: '"' :: '"' :: rest => scanner.pass.after rest
  | scanner, c :: rest => (scanner.step c).after rest

/-- Whether a run that starts here may be shown. -/
def admits (scanner : Scanner) : Bool :=
  scanner.mode = .code && !scanner.remarked &&
    !(scanner.previous.any fun c => isNameChar c || isShield c)

/-- The span of a run that starts here. -/
def span (scanner : Scanner) (run : Text) : Span :=
  { line := scanner.position.line, column := scanner.position.character, length := run.length }

/-- The spans of the known runs of a text, found while it is read. -/
def spans (isKnown : Text → Bool) : Scanner → Text → List Span
  | _, [] => []
  | scanner, '"' :: '"' :: '"' :: rest => scanner.pass.spans isKnown rest
  | scanner, c :: rest =>
    let run := (c :: rest).takeWhile isNameChar
    if scanner.admits && !run.isEmpty && isKnown run then
      scanner.span run :: (scanner.step c).spans isKnown rest
    else (scanner.step c).spans isKnown rest

end Scanner

/-- A span that ends before another begins, on the same line or on an earlier one. -/
def Precedes (left right : Span) : Prop :=
  left.line < right.line ∨
    left.line = right.line ∧ left.column < right.column ∧ left.column + left.length ≤ right.column

/-! ## Reading on -/

/-- Texts as the scanner takes them apart: a delimiter is read at once, any other character
alone. -/
@[elab_as_elim]
theorem readingInduction {motive : Text → Prop} (nil : motive [])
    (delimiter : ∀ rest, motive rest → motive ('"' :: '"' :: '"' :: rest))
    (char : ∀ c rest, opensDoc (c :: rest) = false → motive rest → motive (c :: rest))
    (text : Text) : motive text := by
  fun_induction Scanner.after Scanner.start text with
  | case1 => exact nil
  | case2 scanner rest inductionHypothesis => exact delimiter rest inductionHypothesis
  | case3 scanner c rest other inductionHypothesis =>
      apply char c rest _ inductionHypothesis
      by_contra opens
      obtain ⟨others, shape⟩ : ['"', '"', '"'] <+: c :: rest := by simpa [opensDoc] using opens
      obtain ⟨same, tail⟩ := List.cons.inj shape
      exact other others same.symm tail.symm

theorem ne_delimiter_of_plain {c : Char} {rest : Text} (plain : opensDoc (c :: rest) = false) :
    ∀ others, c = '"' → rest = '"' :: '"' :: others → False := by
  rintro others rfl rfl
  simp [opensDoc] at plain

theorem opensDoc_of_ne {c : Char} {rest : Text} (unquoted : c ≠ '"') :
    opensDoc (c :: rest) = false := by
  simp [opensDoc, List.isPrefixOf, Ne.symm unquoted]

/-- A delimiter does not reach past the end of a text that no quote follows. -/
theorem opensDoc_append {c : Char} {text rest : Text} (unquoted : rest.head? ≠ some '"') :
    opensDoc (c :: (text ++ rest)) = opensDoc (c :: text) := by
  cases rest with
  | nil => rw [List.append_nil]
  | cons d others =>
      have different : '"' ≠ d := by
        rintro rfl
        exact unquoted rfl
      match text with
      | [] => simp [opensDoc, List.isPrefixOf, different]
      | [_] => simp [opensDoc, List.isPrefixOf, different]
      | _ :: _ :: _ => simp [opensDoc, List.isPrefixOf]

namespace Scanner

variable {scanner : Scanner} {isKnown : Text → Bool}

theorem after_cons {c : Char} {rest : Text} (plain : opensDoc (c :: rest) = false) :
    scanner.after (c :: rest) = (scanner.step c).after rest := by
  rw [after]
  exact ne_delimiter_of_plain plain

theorem spans_cons {c : Char} {rest : Text} (plain : opensDoc (c :: rest) = false) :
    scanner.spans isKnown (c :: rest) =
      if scanner.admits && isNameChar c && isKnown ((c :: rest).takeWhile isNameChar) then
        scanner.span ((c :: rest).takeWhile isNameChar) :: (scanner.step c).spans isKnown rest
      else (scanner.step c).spans isKnown rest := by
  have starts : (!((c :: rest).takeWhile isNameChar).isEmpty) = isNameChar c := by
    cases belongs : isNameChar c <;> simp [belongs]
  rw [spans, starts]
  exact ne_delimiter_of_plain plain

theorem spans_cons_other {c : Char} {rest : Text} (other : isNameChar c = false)
    (unquoted : c ≠ '"') :
    scanner.spans isKnown (c :: rest) = (scanner.step c).spans isKnown rest := by
  rw [spans_cons (opensDoc_of_ne unquoted), other, Bool.and_false, Bool.false_and]
  rfl

theorem spans_append {text rest : Text} (unquoted : rest.head? ≠ some '"')
    (ends : ∀ c, rest.head? = some c → isNameChar c = false) :
    scanner.spans isKnown (text ++ rest) =
      scanner.spans isKnown text ++ (scanner.after text).spans isKnown rest := by
  induction text using readingInduction generalizing scanner with
  | nil => rfl
  | delimiter text inductionHypothesis =>
      exact inductionHypothesis
  | char c text plain inductionHypothesis =>
      have stillPlain : opensDoc (c :: (text ++ rest)) = false := by
        rw [opensDoc_append unquoted, plain]
      have sameRun : (c :: (text ++ rest)).takeWhile isNameChar =
          (c :: text).takeWhile isNameChar := by
        rw [← List.cons_append, Text.takeWhile_append_of_stops ends]
      rw [List.cons_append, spans_cons stillPlain, spans_cons plain, after_cons plain, sameRun,
        inductionHypothesis]
      split
      · rfl
      · rfl

theorem after_append {text rest : Text} (scanner : Scanner) (unquoted : rest.head? ≠ some '"') :
    scanner.after (text ++ rest) = (scanner.after text).after rest := by
  induction text using readingInduction generalizing scanner with
  | nil => rfl
  | delimiter text inductionHypothesis => exact inductionHypothesis scanner.pass
  | char c text plain inductionHypothesis =>
      have stillPlain : opensDoc (c :: (text ++ rest)) = false := by
        rw [opensDoc_append unquoted, plain]
      rw [List.cons_append, after_cons stillPlain, inductionHypothesis, after_cons plain]

theorem after_cons_other {c : Char} {rest : Text} (scanner : Scanner) (unquoted : c ≠ '"') :
    scanner.after (c :: rest) = (scanner.step c).after rest :=
  after_cons (opensDoc_of_ne unquoted)

/-! ## What stands before -/

theorem position_after (scanner : Scanner) (text : Text) :
    (scanner.after text).position = Text.positionFrom scanner.position text.length text := by
  induction text using readingInduction generalizing scanner with
  | nil => rfl
  | delimiter rest inductionHypothesis => exact inductionHypothesis scanner.pass
  | char c rest plain inductionHypothesis =>
      have moved : (scanner.step c).position = scanner.position.after c := by
        unfold step
        split <;> rfl
      rw [after_cons plain, inductionHypothesis, moved]
      rfl

theorem position_after_start (before rest : Text) :
    (start.after before).position = (before ++ rest).positionAt before.length := by
  rw [position_after, Text.positionAt, Int.toNat_natCast, Text.positionFrom_append]
  rfl

theorem previous_after (scanner : Scanner) (text : Text) (belongs : Char → Bool)
    (inLine : belongs '\n' = false) :
    (scanner.after text).previous.any belongs =
      (text.getLast?.or scanner.previous).any belongs := by
  induction text using readingInduction generalizing scanner with
  | nil => rfl
  | delimiter rest inductionHypothesis =>
      rw [after, inductionHypothesis, getLast?_cons_or, getLast?_cons_or, getLast?_cons_or]
      rfl
  | char c rest plain inductionHypothesis =>
      rw [after_cons plain, inductionHypothesis, getLast?_cons_or]
      unfold step
      by_cases newline : c = '\n'
      · cases rest.getLast? <;> simp [newline, inLine]
      · rw [if_neg newline]

/-- Whether a line that goes on at the end of a text has a semicolon in it that no backslash
precedes. -/
def Remarked (text : Text) : Prop :=
  ∃ earlier line, text = earlier ++ ';' :: line ∧ earlier.getLast? ≠ some '\\' ∧ '\n' ∉ line

/-- The same when the text follows `previous` on a line where such a semicolon may stand already. -/
def RemarkedFrom (remarked : Bool) (previous : Option Char) (text : Text) : Prop :=
  (remarked ∧ '\n' ∉ text) ∨
    ∃ earlier line, text = earlier ++ ';' :: line ∧ earlier.getLast?.or previous ≠ some '\\' ∧
      '\n' ∉ line

private theorem remarkedFrom_cons (remarked : Bool) (previous : Option Char) (c : Char)
    (text : Text) :
    RemarkedFrom remarked previous (c :: text) ↔
      RemarkedFrom (c != '\n' && (remarked || isRemark previous c)) (some c) text := by
  constructor
  · rintro (⟨already, free⟩ | ⟨earlier, line, shape, unescaped, free⟩)
    · rw [List.mem_cons, not_or] at free
      exact .inl ⟨by simpa [already] using Ne.symm free.1, free.2⟩
    · cases earlier with
      | nil =>
          obtain ⟨rfl, rfl⟩ := List.cons.inj shape
          have unescapedHere : previous ≠ some '\\' := unescaped
          exact .inl ⟨by simp [isRemark, unescapedHere], free⟩
      | cons d earlier =>
          obtain ⟨rfl, rfl⟩ := List.cons.inj shape
          rw [getLast?_cons_or] at unescaped
          exact .inr ⟨earlier, line, rfl, unescaped, free⟩
  · rintro (⟨flagged, free⟩ | ⟨earlier, line, rfl, unescaped, free⟩)
    · simp only [Bool.and_eq_true, bne_iff_ne, ne_eq, Bool.or_eq_true, isRemark,
        decide_eq_true_eq] at flagged
      obtain ⟨inLine, already | ⟨rfl, unescaped⟩⟩ := flagged
      · refine .inl ⟨already, ?_⟩
        rw [List.mem_cons, not_or]
        exact ⟨Ne.symm inLine, free⟩
      · exact .inr ⟨[], text, rfl, unescaped, free⟩
    · refine .inr ⟨c :: earlier, line, rfl, ?_, free⟩
      rwa [getLast?_cons_or]

private theorem remarkedFrom_lineStart (remarked : Bool) (text : Text) :
    RemarkedFrom remarked (some '\n') text ↔ RemarkedFrom remarked none text := by
  have same : ∀ earlier : Text,
      earlier.getLast?.or (some '\n') ≠ some '\\' ↔ earlier.getLast?.or none ≠ some '\\' := by
    intro earlier
    cases earlier.getLast? <;> simp
  unfold RemarkedFrom
  simp only [same]

private theorem remarked_after (scanner : Scanner) (text : Text) :
    (scanner.after text).remarked ↔ RemarkedFrom scanner.remarked scanner.previous text := by
  induction text using readingInduction generalizing scanner with
  | nil => simp [after, RemarkedFrom]
  | delimiter rest inductionHypothesis =>
      rw [after, inductionHypothesis, remarkedFrom_cons, remarkedFrom_cons, remarkedFrom_cons]
      simp [pass, isRemark]
  | char c rest plain inductionHypothesis =>
      rw [after_cons plain, inductionHypothesis, remarkedFrom_cons]
      unfold step
      by_cases newline : c = '\n'
      · rw [if_pos newline, newline, remarkedFrom_lineStart]
        rfl
      · have inLine : (c != '\n') = true := by simpa using newline
        rw [if_neg newline, inLine, Bool.true_and]

theorem remarked_after_start (text : Text) : (start.after text).remarked ↔ Remarked text := by
  rw [remarked_after]
  simp [RemarkedFrom, Remarked, start]

/-! ## Runs that are shown -/

theorem exists_before_of_not_isNameChar {c : Char} {text before run rest : Text} (name : IsName run)
    (other : isNameChar c = false) (shape : c :: text = before ++ run ++ rest) :
    ∃ passed, before = c :: passed ∧ text = passed ++ run ++ rest := by
  cases before with
  | cons d passed =>
      obtain ⟨rfl, tail⟩ := List.cons.inj shape
      exact ⟨passed, rfl, tail⟩
  | nil =>
      cases run with
      | nil => exact absurd rfl name.1
      | cons d others =>
          obtain ⟨rfl, -⟩ := List.cons.inj shape
          exact absurd rfl (ne_of_isNameChar (name.2 c List.mem_cons_self) other)

/-- No delimiter reaches into a run. -/
theorem opensDoc_before {c : Char} {before run rest : Text} (name : IsName run) :
    opensDoc (c :: (before ++ run ++ rest)) = opensDoc (c :: before) := by
  rw [List.append_assoc]
  exact opensDoc_append (name.head?_append_ne (by decide) rest)

private theorem mem_spans_cons {c : Char} {text : Text} {found : Span}
    (plain : opensDoc (c :: text) = false) :
    found ∈ scanner.spans isKnown (c :: text) ↔
      (scanner.admits ∧ isNameChar c ∧ isKnown ((c :: text).takeWhile isNameChar) ∧
        found = scanner.span ((c :: text).takeWhile isNameChar)) ∨
      found ∈ (scanner.step c).spans isKnown text := by
  rw [spans_cons plain]
  generalize (c :: text).takeWhile isNameChar = run
  split
  · next here =>
    simp only [Bool.and_eq_true] at here
    rw [List.mem_cons]
    simp only [here, true_and]
  · next nothing =>
    simp only [Bool.and_eq_true, not_and] at nothing
    constructor
    · exact .inr
    · rintro (⟨admitted, belongs, known, -⟩ | later)
      · exact absurd known (nothing ⟨admitted, belongs⟩)
      · exact later

/-- The spans are those of the known runs that are admitted where they start. -/
theorem mem_spans_iff {text : Text} {found : Span} :
    found ∈ scanner.spans isKnown text ↔
      ∃ before run rest, text = before ++ run ++ rest ∧ IsName run ∧
        (∀ c, rest.head? = some c → isNameChar c = false) ∧ isKnown run ∧
        (scanner.after before).admits ∧ found = (scanner.after before).span run := by
  induction text using readingInduction generalizing scanner with
  | nil =>
      constructor
      · intro member
        simp [spans] at member
      · rintro ⟨before, run, rest, shape, name, -⟩
        simp only [List.nil_eq, List.append_eq_nil_iff] at shape
        exact absurd shape.1.2 name.1
  | delimiter text inductionHypothesis =>
      rw [spans, inductionHypothesis]
      constructor
      · rintro ⟨before, run, rest, rfl, facts⟩
        exact ⟨'"' :: '"' :: '"' :: before, run, rest, rfl, facts⟩
      · rintro ⟨before, run, rest, shape, name, facts⟩
        obtain ⟨_, rfl, second⟩ := exists_before_of_not_isNameChar name (by decide) shape
        obtain ⟨_, rfl, third⟩ := exists_before_of_not_isNameChar name (by decide) second
        obtain ⟨passed, rfl, behind⟩ := exists_before_of_not_isNameChar name (by decide) third
        exact ⟨passed, run, rest, behind, name, facts⟩
  | char c text plain inductionHypothesis =>
      rw [mem_spans_cons plain, inductionHypothesis]
      constructor
      · rintro (⟨admitted, belongs, known, rfl⟩ | ⟨before, run, rest, rfl, name, ends, facts⟩)
        · refine ⟨[], (c :: text).takeWhile isNameChar, (c :: text).dropWhile isNameChar,
            ?_, ?_, ?_, known, admitted, rfl⟩
          · rw [List.nil_append, List.takeWhile_append_dropWhile]
          · exact isName_takeWhile (by simp [belongs])
          · intro d next
            exact Text.head?_dropWhile next
        · rw [opensDoc_before name] at plain
          refine ⟨c :: before, run, rest, rfl, name, ends, ?_⟩
          rwa [after_cons plain]
      · rintro ⟨before, run, rest, shape, name, ends, known, admitted, rfl⟩
        cases before with
        | nil =>
            have whole : (c :: text).takeWhile isNameChar = run := by
              rw [shape, List.nil_append, Text.takeWhile_append_of_stops ends,
                List.takeWhile_eq_self_iff.mpr name.2]
            have belongs : isNameChar c := by
              by_contra other
              rw [List.takeWhile_cons, if_neg other] at whole
              exact name.1 whole.symm
            rw [whole]
            exact .inl ⟨admitted, belongs, known, rfl⟩
        | cons d before =>
            have apart : c :: text = d :: (before ++ run ++ rest) := shape
            obtain ⟨rfl, rfl⟩ := List.cons.inj apart
            rw [opensDoc_before name] at plain
            rw [after_cons plain] at admitted ⊢
            exact .inr ⟨before, run, rest, rfl, name, ends, known, admitted, rfl⟩

/-! ## Order -/

/-- Behind a run that starts here, a run that is admitted starts on a later line or at a column that
the first run does not reach. -/
theorem span_precedes {c : Char} {before run rest : Text} (belongs : isNameChar c)
    (admitted : ((scanner.step c).after before).admits) :
    Precedes (scanner.span ((c :: (before ++ rest)).takeWhile isNameChar))
      (((scanner.step c).after before).span run) := by
  have inLine : c ≠ '\n' := ne_of_isNameChar belongs (by decide)
  have stepped : (scanner.step c).previous = some c ∧
      (scanner.step c).position = ⟨scanner.position.line, scanner.position.character + 1⟩ := by
    simp [step, inLine, Position.after]
  obtain ⟨d, last, stops⟩ : ∃ d, (c :: before).getLast? = some d ∧ isNameChar d = false := by
    refine ⟨_, List.getLast?_cons, ?_⟩
    simp only [admits, Bool.and_eq_true, Bool.not_eq_true'] at admitted
    have outside := admitted.2
    rw [previous_after _ _ _ (by decide), stepped.1] at outside
    cases ending : before.getLast? <;> simp_all
  have bounded : ((c :: (before ++ rest)).takeWhile isNameChar).length ≤ before.length + 1 :=
    Text.length_takeWhile_le_of_stops last stops
  have moved :=
    Text.positionFrom_after (scanner.step c).position before.length before (Nat.le_refl _)
  rw [← position_after, stepped.2] at moved
  unfold Precedes span
  simp only at moved ⊢
  omega

theorem pairwise_spans (isKnown : Text → Bool) (scanner : Scanner) (text : Text) :
    (scanner.spans isKnown text).Pairwise Precedes := by
  induction text using readingInduction generalizing scanner with
  | nil => exact .nil
  | delimiter text inductionHypothesis => exact inductionHypothesis scanner.pass
  | char c text plain inductionHypothesis =>
      rw [spans_cons plain]
      split
      · next here =>
        simp only [Bool.and_eq_true] at here
        refine .cons ?_ (inductionHypothesis _)
        intro later member
        obtain ⟨before, run, rest, rfl, -, -, -, admitted, rfl⟩ := mem_spans_iff.mp member
        rw [List.append_assoc]
        exact span_precedes here.1.2 admitted
      · exact inductionHypothesis _

end Scanner

end Highlight

end GrammarLens
