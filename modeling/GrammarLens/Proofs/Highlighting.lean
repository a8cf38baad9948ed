import GrammarLens.Proofs.HighlightScan
import GrammarLens.Proofs.Lines

/-!
Contract: classification line by line is one pass over the whole text.

Owns:
- the documentation ranges of a line, and how far they reach around a run;
- the scanner and the classification of one line keep step with each other;
- the lines of a text, with either kind of line end;
- classification gives every known run that stands in code a span, and no other run.

## Why the two comment rules do not interfere

A line is read twice: for its documentation, where a semicolon counts in code only, and for its
comment, where every semicolon counts. The scanner keeps both answers, the first as its mode and the
second as a flag. Once the first has found a comment the flag is set, so nothing more is shown on the
line, and the mode matters again only when the next line starts.
-/

namespace GrammarLens

namespace Highlight

/-! ## Ranges of documentation -/

theorem docRanges_cons {previous : Option Char} {opened : Option Nat} {column : Nat} {c : Char}
    {rest : Text} (plain : opensDoc (c :: rest) = false) :
    docRanges previous opened column (c :: rest) =
      if opened.isNone && isRemark previous c then ([], false)
      else docRanges (some c) opened (column + 1) rest := by
  rw [docRanges, isRemark, Bool.and_assoc]
  exact ne_delimiter_of_plain plain

/-- Documentation that has begun covers the run that comes next. -/
theorem exists_range_of_opened (previous : Option Char) (opening column : Nat) (text : Text) :
    ∃ finish, (opening, finish) ∈ (docRanges previous (some opening) column text).1 ∧
      column + (text.takeWhile isNameChar).length ≤ finish := by
  induction text using readingInduction generalizing previous column with
  | nil => exact ⟨column, List.mem_singleton.mpr rfl, Nat.le_refl _⟩
  | delimiter rest inductionHypothesis =>
      refine ⟨column + 3, List.mem_cons_self, ?_⟩
      show column + 0 ≤ column + 3
      omega
  | char c rest plain inductionHypothesis =>
      obtain ⟨finish, member, reaches⟩ := inductionHypothesis (some c) (column + 1)
      refine ⟨finish, ?_, ?_⟩
      · rw [docRanges_cons plain]
        exact member
      · rw [List.takeWhile_cons]
        split
        · rw [List.length_cons]
          omega
        · rw [List.length_nil]
          omega

private theorem le_start_of_mem_docRanges {previous : Option Char} {opened : Option Nat}
    {column low : Nat}
    {text : Text} {range : Nat × Nat} (begun : ∀ opening, opened = some opening → low ≤ opening)
    (reached : low ≤ column) (member : range ∈ (docRanges previous opened column text).1) :
    low ≤ range.1 := by
  induction text using readingInduction generalizing previous opened column with
  | nil =>
      cases opened with
      | none => simp [docRanges] at member
      | some opening =>
          obtain rfl : range = (opening, column) := by simpa [docRanges] using member
          exact begun opening rfl
  | delimiter rest inductionHypothesis =>
      cases opened with
      | none =>
          apply inductionHypothesis _ _ member
          · intro opening same
            obtain rfl := Option.some.inj same
            exact reached
          · omega
      | some opening =>
          rcases List.mem_cons.mp member with rfl | later
          · exact begun opening rfl
          · exact inductionHypothesis (by simp) (by omega) later
  | char c rest plain inductionHypothesis =>
      rw [docRanges_cons plain] at member
      split at member
      · simp at member
      · exact inductionHypothesis begun (by omega) member

/-! ## Comments -/

/-- The comment of a line has begun before a column if it had begun a column earlier, or if the
character between is a remark. -/
theorem commentStartAfter_succ (previous : Option Char) (passed : Text) (c : Char) (rest : Text) :
    let comment := commentStartAfter previous (passed ++ c :: rest)
    (comment.any fun start => start < passed.length + 1) =
      ((comment.any fun start => start < passed.length) ||
        isRemark (passed.getLast?.or previous) c) := by
  induction passed generalizing previous with
  | nil =>
      simp only [List.nil_append, commentStartAfter, List.length_nil]
      show _ = (_ || isRemark previous c)
      unfold isRemark
      split
      · next remark => simp [remark]
      · next plain =>
        rw [Option.any_map]
        simp [plain]
  | cons d passed inductionHypothesis =>
      rw [List.cons_append, commentStartAfter, getLast?_cons_or]
      split
      · simp
      · have next := inductionHypothesis (some d)
        simpa [Option.any_map, Function.comp_def] using next

/-! ## Runs -/

/-- The runs in the rest of a line. A run that has begun before it is passed over. -/
def runsFrom (previous : Option Char) (column : Nat) (text : Text) : List (Nat × Text) :=
  Text.occurrencesFrom leadingRun? column
    (if previous.any isNameChar then (text.takeWhile isNameChar).length else 0) text

private theorem runsFrom_nil (previous : Option Char) (column : Nat) :
    runsFrom previous column [] = [] := by
  rw [runsFrom]
  split <;> rfl

private theorem runsFrom_cons (previous : Option Char) (column : Nat) (c : Char) (rest : Text) :
    runsFrom previous column (c :: rest) =
      (if isNameChar c && !(previous.any isNameChar) then
        [(column, (c :: rest).takeWhile isNameChar)] else []) ++
      runsFrom (some c) (column + 1) rest := by
  unfold runsFrom
  cases belongs : isNameChar c with
  | false =>
      have vacant : (c :: rest).takeWhile isNameChar = [] := by
        rw [List.takeWhile_cons, belongs]
        rfl
      simp [vacant, Text.occurrencesFrom, leadingRun?, belongs]
  | true =>
      have longer : (c :: rest).takeWhile isNameChar = c :: rest.takeWhile isNameChar := by
        rw [List.takeWhile_cons, if_pos belongs]
      cases begun : previous.any isNameChar with
      | true => simp [longer, Text.occurrencesFrom, belongs]
      | false => simp [longer, Text.occurrencesFrom, leadingRun?, belongs]

/-! ## Keeping step on one line -/

/-- What is left of the documentation ranges of a line, which are `found` in all, with the flag for
the next line: the ranges that have been closed, and those of the rest of the line. -/
inductive RangesLeft (found : List (Nat × Nat) × Bool) (previous : Option Char) (column : Nat)
    (text : Text) : Mode → Prop
  | code {closed : List (Nat × Nat)} (past : ∀ range ∈ closed, range.2 ≤ column)
      (left : found = (closed ++ (docRanges previous none column text).1,
        (docRanges previous none column text).2)) : RangesLeft found previous column text .code
  | doc {closed : List (Nat × Nat)} {opening : Nat} (begun : opening ≤ column)
      (past : ∀ range ∈ closed, range.2 ≤ column)
      (left : found = (closed ++ (docRanges previous (some opening) column text).1,
        (docRanges previous (some opening) column text).2)) :
      RangesLeft found previous column text .doc
  | comment (outside : found.2 = false) : RangesLeft found previous column text .comment

namespace RangesLeft

variable {found : List (Nat × Nat) × Bool} {previous : Option Char} {column : Nat} {text : Text}
  {mode : Mode}

theorem step {c : Char} (ranges : RangesLeft found previous column (c :: text) mode)
    (plain : opensDoc (c :: text) = false) :
    RangesLeft found (some c) (column + 1) text
      (if mode = .code && isRemark previous c then .comment else mode) := by
  cases ranges with
  | code past left =>
      rw [docRanges_cons plain] at left
      cases remark : isRemark previous c with
      | true =>
          rw [remark] at left
          exact .comment (congrArg Prod.snd left)
      | false =>
          rw [remark] at left
          exact .code (fun range member => Nat.le_succ_of_le (past range member)) left
  | doc begun past left =>
      rw [docRanges_cons plain] at left
      exact .doc (Nat.le_succ_of_le begun)
        (fun range member => Nat.le_succ_of_le (past range member)) left
  | comment outside => exact .comment outside

theorem pass (ranges : RangesLeft found previous column ('"' :: '"' :: '"' :: text) mode) :
    RangesLeft found (some '"') (column + 3) text mode.toggled := by
  have later : ∀ {finish : Nat}, finish ≤ column → finish ≤ column + 3 := by
    intro finish bound
    omega
  cases ranges with
  | code past left =>
      exact .doc (Nat.le_add_right column 3) (fun range member => later (past range member)) left
  | @doc closed opening begun past left =>
      have closedNow : ∀ range ∈ closed ++ [(opening, column + 3)], range.2 ≤ column + 3 := by
        intro range member
        rcases List.mem_append.mp member with earlier | last
        · exact later (past range earlier)
        · rw [List.mem_singleton.mp last]
      refine .code closedNow ?_
      rw [left, List.append_assoc]
      rfl
  | comment outside => exact .comment outside

/-- At the end of a line the flag for the next line says whether the line ends in documentation. -/
theorem nextLine_eq (ranges : RangesLeft found previous column [] mode) :
    mode.nextLine = if found.2 then .doc else .code := by
  cases ranges with
  | code past left =>
      rw [left]
      rfl
  | doc begun past left =>
      rw [left]
      rfl
  | comment outside =>
      rw [outside]
      rfl

/-- Outside comments, a range covers the run that comes next exactly in documentation. -/
theorem any_covers_eq {c : Char} (ranges : RangesLeft found previous column (c :: text) mode)
    (plain : opensDoc (c :: text) = false) (belongs : isNameChar c) (outside : mode ≠ .comment) :
    (found.1.any fun range => range.1 ≤ column &&
      column + ((c :: text).takeWhile isNameChar).length ≤ range.2) = decide (mode = .doc) := by
  have positive : 0 < ((c :: text).takeWhile isNameChar).length := by
    rw [List.takeWhile_cons, if_pos belongs, List.length_cons]
    omega
  cases ranges with
  | comment => exact absurd rfl outside
  | @doc closed opening begun past left =>
      obtain ⟨finish, member, reaches⟩ :=
        exists_range_of_opened previous opening column (c :: text)
      rw [left]
      show _ = true
      rw [List.any_eq_true]
      refine ⟨(opening, finish), List.mem_append_right _ member, ?_⟩
      simp [begun, reaches]
  | @code closed past left =>
      rw [left]
      show _ = false
      rw [List.any_eq_false]
      intro range member
      rcases List.mem_append.mp member with earlier | later
      · have bound := past range earlier
        simp only [Bool.and_eq_true, decide_eq_true_eq]
        omega
      · have notRemark : isRemark previous c = false := by
          have different : c ≠ ';' := ne_of_isNameChar belongs (by decide)
          simp [isRemark, different]
        rw [docRanges_cons plain, notRemark] at later
        have bound : column + 1 ≤ range.1 :=
          le_start_of_mem_docRanges (by simp) (Nat.le_refl _) later
        simp only [Bool.and_eq_true, decide_eq_true_eq]
        omega

end RangesLeft

/-- The scanner has come as far in a line as the classification of that line: `passed` is read and
`text` is left. -/
structure Tracks (line : Text) (found : List (Nat × Nat) × Bool) (number : Nat) (passed text : Text)
    (scanner : Scanner) : Prop where
  shape : line = passed ++ text
  position : scanner.position = ⟨number, passed.length⟩
  previous : scanner.previous = passed.getLast?
  remarked : scanner.remarked = (commentStart? line).any fun start => start < passed.length
  comment : scanner.mode = .comment → scanner.remarked
  ranges : RangesLeft found scanner.previous passed.length text scanner.mode

namespace Tracks

variable {line : Text} {found : List (Nat × Nat) × Bool} {number : Nat} {passed text : Text}
  {scanner : Scanner} {c : Char}

private theorem remarked_succ (tracks : Tracks line found number passed (c :: text) scanner) :
    (scanner.remarked || isRemark scanner.previous c) =
      (commentStart? line).any fun start => start < passed.length + 1 := by
  have next := commentStartAfter_succ none passed c text
  rw [Option.or_none, ← tracks.previous, ← tracks.shape] at next
  exact (congrArg (· || _) tracks.remarked).trans next.symm

theorem step (tracks : Tracks line found number passed (c :: text) scanner)
    (plain : opensDoc (c :: text) = false) (inLine : c ≠ '\n') :
    Tracks line found number (passed ++ [c]) text (scanner.step c) := by
  have longer : (passed ++ [c]).length = passed.length + 1 := by
    rw [List.length_append, List.length_singleton]
  rw [Scanner.step, if_neg inLine]
  refine ⟨?shape, ?position, ?previous, ?remarked, ?comment, ?ranges⟩
  case shape => rw [tracks.shape, List.append_assoc, List.singleton_append]
  case position => rw [Position.after, if_neg inLine, tracks.position, longer]
  case previous => rw [List.getLast?_concat]
  case remarked =>
      rw [longer]
      exact tracks.remarked_succ
  case comment =>
      intro commented
      simp only at commented ⊢
      split at commented
      · next remark =>
        rw [Bool.and_eq_true] at remark
        rw [remark.2, Bool.or_true]
      · rw [tracks.comment commented, Bool.true_or]
  case ranges =>
      rw [longer]
      exact tracks.ranges.step plain

theorem pass (tracks : Tracks line found number passed ('"' :: '"' :: '"' :: text) scanner) :
    Tracks line found number (passed ++ ['"', '"', '"']) text scanner.pass := by
  have longer : (passed ++ ['"', '"', '"']).length = passed.length + 3 := List.length_append
  refine ⟨?shape, ?position, ?previous, ?remarked, ?comment, ?ranges⟩
  case shape =>
      rw [tracks.shape, List.append_assoc]
      rfl
  case position => rw [longer, Scanner.pass, tracks.position]
  case previous => simp [Scanner.pass]
  case remarked =>
      -- A quote starts no comment, so none starts in three of them.
      have quoted : ∀ before rest, line = before ++ '"' :: rest →
          ((commentStart? line).any fun start => start < before.length + 1) =
            (commentStart? line).any fun start => start < before.length := by
        intro before rest shape
        rw [shape, commentStart?, commentStartAfter_succ]
        simp [isRemark]
      have first := quoted passed _ tracks.shape
      have second := quoted (passed ++ ['"']) ('"' :: text) (by simp [tracks.shape])
      have third := quoted (passed ++ ['"', '"']) text (by simp [tracks.shape])
      simp only [List.length_append, List.length_cons, List.length_nil] at second third
      rw [longer, third, second, first]
      exact tracks.remarked
  case comment =>
      intro commented
      apply tracks.comment
      have toggled : scanner.mode.toggled = .comment := commented
      cases mode : scanner.mode <;> simp [mode, Mode.toggled] at toggled ⊢
  case ranges =>
      rw [longer]
      exact tracks.ranges.pass

theorem read {before rest : Text}
    (tracks : Tracks line found number passed (before ++ rest) scanner) (free : '\n' ∉ before)
    (unquoted : rest.head? ≠ some '"') :
    Tracks line found number (passed ++ before) rest (scanner.after before) := by
  induction before using readingInduction generalizing scanner passed with
  | nil =>
      rw [List.append_nil]
      exact tracks
  | delimiter before inductionHypothesis =>
      simp only [List.mem_cons, not_or] at free
      have next := inductionHypothesis tracks.pass free.2.2.2
      rw [List.append_assoc] at next
      exact next
  | char c before plain inductionHypothesis =>
      rw [List.mem_cons, not_or] at free
      have stillPlain : opensDoc (c :: (before ++ rest)) = false := by
        rw [opensDoc_append unquoted, plain]
      have next := inductionHypothesis (tracks.step stillPlain (Ne.symm free.1)) free.2
      rw [List.append_assoc] at next
      rw [Scanner.after_cons plain]
      exact next

theorem after (tracks : Tracks line found number passed text scanner) (free : '\n' ∉ text) :
    Tracks line found number line [] (scanner.after text) := by
  have whole := tracks.shape
  rw [← List.append_nil text] at tracks
  have reached := tracks.read free (by simp)
  rwa [← whole] at reached

/-- Where a run starts, the line shows it exactly if the scanner admits it. -/
theorem isShown_eq (tracks : Tracks line found number passed (c :: text) scanner)
    (plain : opensDoc (c :: text) = false) (belongs : isNameChar c) :
    (!(scanner.previous.any isNameChar) &&
      isShown line (commentStart? line) found.1 passed.length
        ((c :: text).takeWhile isNameChar).length) = scanner.admits := by
  have before : line.before? passed.length = scanner.previous := by
    rw [tracks.shape, Text.before?_append, tracks.previous]
  unfold isShown Scanner.admits
  rw [← tracks.remarked, before]
  cases remarked : scanner.remarked with
  | true => simp
  | false =>
      have outside : scanner.mode ≠ .comment := by
        intro commented
        have flagged := tracks.comment commented
        simp [remarked] at flagged
      rw [tracks.ranges.any_covers_eq plain belongs outside]
      cases mode : scanner.mode <;> cases scanner.previous <;> simp_all

/-- The runs that the line shows from here on are those that the scanner gives a span. -/
theorem filterMap_runsFrom (isKnown : Text → Bool)
    (tracks : Tracks line found number passed text scanner) (free : '\n' ∉ text) :
    ((runsFrom scanner.previous passed.length text).filterMap fun (column, run) =>
      if isShown line (commentStart? line) found.1 column run.length && isKnown run then
        some { line := number, column, length := run.length }
      else none) = scanner.spans isKnown text := by
  induction text using readingInduction generalizing scanner passed with
  | nil =>
      rw [runsFrom_nil]
      rfl
  | delimiter rest inductionHypothesis =>
      simp only [List.mem_cons, not_or] at free
      have next := inductionHypothesis tracks.pass free.2.2.2
      rw [List.length_append] at next
      rw [runsFrom_cons, runsFrom_cons, runsFrom_cons]
      exact next
  | char c rest plain inductionHypothesis =>
      rw [List.mem_cons, not_or] at free
      have next := inductionHypothesis (tracks.step plain (Ne.symm free.1)) free.2
      have stepped : (scanner.step c).previous = some c := by
        rw [Scanner.step, if_neg (Ne.symm free.1)]
      rw [List.length_append, List.length_singleton, stepped] at next
      rw [runsFrom_cons, List.filterMap_append, next, Scanner.spans_cons plain]
      generalize shape : (c :: rest).takeWhile isNameChar = run
      cases belongs : isNameChar c with
      | false => simp
      | true =>
          have shown := tracks.isShown_eq plain belongs
          rw [shape] at shown
          have here : scanner.span run = ⟨number, passed.length, run.length, 0⟩ := by
            rw [Scanner.span, tracks.position]
          cases begun : scanner.previous.any isNameChar with
          | true =>
              rw [begun, Bool.not_true, Bool.false_and] at shown
              simp [← shown]
          | false =>
              rw [begun, Bool.not_false, Bool.true_and] at shown
              cases admitted : scanner.admits && isKnown run <;> simp_all

end Tracks

/-- The scanner at the start of a line. -/
def Scanner.atLine (number : Nat) (inside : Bool) : Scanner :=
  ⟨if inside then .doc else .code, false, none, ⟨number, 0⟩⟩

section Line

variable {line : Text} (free : '\n' ∉ line) (number : Nat) (inside : Bool)

theorem tracks_atLine : Tracks line (docRanges none (if inside then some 0 else none) 0 line) number
    [] line (Scanner.atLine number inside) := by
  refine ⟨rfl, rfl, rfl, ?_, ?_, ?_⟩
  · simp [Scanner.atLine]
  · cases inside <;> simp [Scanner.atLine]
  · have past : ∀ range ∈ ([] : List (Nat × Nat)), range.2 ≤ 0 := by simp
    cases inside with
    | false => exact .code past rfl
    | true => exact .doc (Nat.le_refl 0) past rfl

include free

private theorem lineSpans_eq (isKnown : Text → Bool) :
    lineSpans isKnown number line (docRanges none (if inside then some 0 else none) 0 line).1 =
      (Scanner.atLine number inside).spans isKnown line :=
  (tracks_atLine number inside).filterMap_runsFrom isKnown free

theorem step_after_atLine :
    ((Scanner.atLine number inside).after line).step '\n' =
      Scanner.atLine (number + 1)
        (docRanges none (if inside then some 0 else none) 0 line).2 := by
  have tracks := (tracks_atLine number inside).after free
  rw [Scanner.step, if_pos rfl, tracks.ranges.nextLine_eq, tracks.position]
  rfl

end Line

/-! ## All lines -/

/-- A text and its lines, each but the last with a newline or a carriage return and a newline at its
end. -/
inductive Lined : Text → List Text → Prop
  | last {line : Text} (free : '\n' ∉ line) : Lined line [line]
  | next {line ending text : Text} {lines : List Text} (free : '\n' ∉ line)
      (ends : ending = ['\n'] ∨ ending = ['\r', '\n']) (rest : Lined text lines) :
      Lined (line ++ ending ++ text) (line :: lines)

theorem lined_visibleLines (text : Text) : Lined text (visibleLines (Text.lines text)) := by
  rw [Text.lines_eq_splitAtChar]
  by_cases newline : '\n' ∈ text
  · obtain ⟨line, rest, shape, free⟩ := List.eq_append_cons_of_mem newline
    have shorter : rest.length < text.length := by
      rw [shape, List.length_append, List.length_cons]
      omega
    have others : Lined rest (visibleLines (Text.splitAtChar '\n' rest)) := by
      rw [← Text.lines_eq_splitAtChar]
      exact lined_visibleLines rest
    obtain ⟨next, later, split⟩ :=
      List.exists_cons_of_ne_nil (Text.splitAtChar_ne_nil '\n' rest)
    rw [shape, Text.splitAtChar_append, Text.splitAtChar_eq_singleton free, List.singleton_append,
      split, visibleLines, ← split]
    unfold Text.dropFinalReturn
    split
    · next returned =>
      obtain ⟨shown, rfl⟩ := List.getLast?_eq_some_iff.mp returned
      rw [List.mem_append, not_or] at free
      have lined := Lined.next free.1 (.inr rfl) others
      simpa using lined
    · have lined := Lined.next free (.inl rfl) others
      simpa using lined
  · rw [Text.splitAtChar_eq_singleton newline]
    exact .last newline
termination_by text.length

private theorem classifyLines_cons (isKnown : Text → Bool) (number : Nat) (inside : Bool)
    (line : Text) (others : List Text) :
    classifyLines isKnown number inside (line :: others) =
      lineSpans isKnown number line (docRanges none (if inside then some 0 else none) 0 line).1 ++
        classifyLines isKnown (number + 1)
          (docRanges none (if inside then some 0 else none) 0 line).2 others := rfl

/-- A carriage return before a newline changes nothing for what follows. -/
theorem Scanner.step_return (scanner : Scanner) :
    (scanner.step '\r').step '\n' = scanner.step '\n' := by
  simp [step, isRemark, Position.after]

section Ending

variable {ending : Text} (ends : ending = ['\n'] ∨ ending = ['\r', '\n'])

include ends

theorem head?_ending {text : Text} {c : Char} (first : (ending ++ text).head? = some c) :
    c = '\n' ∨ c = '\r' := by
  rcases ends with rfl | rfl
  · exact .inl (Option.some.inj first).symm
  · exact .inr (Option.some.inj first).symm

theorem unquoted_ending (text : Text) : (ending ++ text).head? ≠ some '"' := by
  intro quoted
  simpa using head?_ending ends quoted

theorem not_isNameChar_ending {text : Text} {c : Char} (first : (ending ++ text).head? = some c) :
    isNameChar c = false := by
  rcases head?_ending ends first with rfl | rfl <;> rfl

private theorem spans_ending (isKnown : Text → Bool) (scanner : Scanner) (text : Text) :
    scanner.spans isKnown (ending ++ text) = (scanner.step '\n').spans isKnown text := by
  rcases ends with rfl | rfl
  · exact Scanner.spans_cons_other (by decide) (by decide)
  · have returned : scanner.spans isKnown (['\r', '\n'] ++ text) =
        (scanner.step '\r').spans isKnown ('\n' :: text) :=
      Scanner.spans_cons_other (by decide) (by decide)
    rw [returned, Scanner.spans_cons_other (by decide) (by decide), scanner.step_return]

theorem after_ending (scanner : Scanner) (text : Text) :
    scanner.after (ending ++ text) = (scanner.step '\n').after text := by
  rcases ends with rfl | rfl
  · exact Scanner.after_cons_other scanner (by decide)
  · have returned : scanner.after (['\r', '\n'] ++ text) =
        (scanner.step '\r').after ('\n' :: text) :=
      Scanner.after_cons_other scanner (by decide)
    rw [returned, Scanner.after_cons_other _ (by decide), scanner.step_return]

end Ending

private theorem classifyLines_eq (isKnown : Text → Bool) {text : Text} {lines : List Text}
    (lined : Lined text lines) (number : Nat) (inside : Bool) :
    classifyLines isKnown number inside lines =
      (Scanner.atLine number inside).spans isKnown text := by
  induction lined generalizing number inside with
  | last free =>
      rw [classifyLines_cons, lineSpans_eq free number inside, classifyLines, List.append_nil]
  | @next line ending text lines free ends rest inductionHypothesis =>
      rw [classifyLines_cons, lineSpans_eq free number inside, inductionHypothesis,
        List.append_assoc,
        Scanner.spans_append (unquoted_ending ends text) fun c => not_isNameChar_ending ends,
        spans_ending ends, step_after_atLine free number inside]

/-- Classification is one pass of the scanner. -/
theorem classify_eq_spans (names : List Text) (text : Text) :
    classify names text = Scanner.start.spans names.contains text :=
  classifyLines_eq names.contains (lined_visibleLines text) 0 false

example : classify [['A']] "A \"\"\"A;\n\"\"\" A ; A\r\nA #A".toList =
    [⟨0, 0, 1, 0⟩, ⟨1, 4, 1, 0⟩, ⟨2, 0, 1, 0⟩] := by decide

/-! ## What is highlighted -/

private theorem admits_after_iff {before : Text} :
    (Scanner.start.after before).admits ↔
      (∀ c, before.getLast? = some c → isNameChar c = false ∧ isShield c = false) ∧
        (Scanner.start.after before).mode = .code ∧ ¬ Scanner.Remarked before := by
  have neighbour := Scanner.previous_after Scanner.start before
    (fun c => isNameChar c || isShield c) (by decide)
  have startsAlone : Scanner.start.previous = none := rfl
  rw [startsAlone, Option.or_none] at neighbour
  rw [← Scanner.remarked_after_start, Scanner.admits, neighbour]
  cases last : before.getLast? with
  | none => simp
  | some c => simp [and_comm, and_assoc]

/-- The spans of a text, by the runs that they stand for. -/
theorem mem_classify_iff {names : List Text} {text : Text} {span : Span} :
    span ∈ classify names text ↔
      ∃ before run rest, text = before ++ run ++ rest ∧ IsName run ∧
        (∀ c, before.getLast? = some c → isNameChar c = false ∧ isShield c = false) ∧
        (∀ c, rest.head? = some c → isNameChar c = false) ∧ run ∈ names ∧
        (Scanner.start.after before).mode = .code ∧ ¬ Scanner.Remarked before ∧
        span = ⟨(text.positionAt before.length).line, (text.positionAt before.length).character,
          run.length, 0⟩ := by
  have placed : ∀ before run rest : Text, (Scanner.start.after before).span run =
      ⟨((before ++ run ++ rest).positionAt before.length).line,
        ((before ++ run ++ rest).positionAt before.length).character, run.length, 0⟩ := by
    intro before run rest
    rw [Scanner.span, Scanner.position_after_start before (run ++ rest), List.append_assoc]
  rw [classify_eq_spans, Scanner.mem_spans_iff]
  constructor
  · rintro ⟨before, run, rest, rfl, name, ends, known, admitted, rfl⟩
    obtain ⟨stops, inCode, unremarked⟩ := admits_after_iff.mp admitted
    exact ⟨before, run, rest, rfl, name, stops, ends, List.contains_iff_mem.mp known, inCode,
      unremarked, placed before run rest⟩
  · rintro ⟨before, run, rest, rfl, name, stops, ends, known, inCode, unremarked, rfl⟩
    exact ⟨before, run, rest, rfl, name, ends, List.contains_iff_mem.mpr known,
      admits_after_iff.mpr ⟨stops, inCode, unremarked⟩, (placed before run rest).symm⟩

/-- Classification is one pass over the text: it gives every known run that stands in code, behind
no remark and no shielding character, one span, in the order of the text. -/
theorem classify_scans (names : List Text) (text : Text) :
    classify names text = Scanner.start.spans names.contains text ∧
    (∀ span, span ∈ classify names text ↔
      ∃ before run rest, text = before ++ run ++ rest ∧ IsName run ∧
        (∀ c, before.getLast? = some c → isNameChar c = false) ∧
        (∀ c, rest.head? = some c → isNameChar c = false) ∧
        run ∈ names ∧
        (Scanner.start.after before).mode = .code ∧
        ¬ Scanner.Remarked before ∧
        (∀ c, before.getLast? = some c → c ≠ '#' ∧ c ≠ ':' ∧ c ≠ '"') ∧
        span = ⟨(text.positionAt before.length).line, (text.positionAt before.length).character,
          run.length, 0⟩) ∧
    (classify names text).Pairwise Precedes := by
  have unshielded : ∀ c, isShield c = false ↔ c ≠ '#' ∧ c ≠ ':' ∧ c ≠ '"' := by
    intro c
    simp [isShield, and_assoc]
  refine ⟨classify_eq_spans names text, ?_, ?_⟩
  · intro span
    rw [mem_classify_iff]
    simp only [unshielded]
    constructor
    · rintro ⟨before, run, rest, shape, name, stops, ends, known, inCode, unremarked, place⟩
      exact ⟨before, run, rest, shape, name, fun c last => (stops c last).1, ends, known, inCode,
        unremarked, fun c last => (stops c last).2, place⟩
    · rintro ⟨before, run, rest, shape, name, stops, ends, known, inCode, unremarked, clear, place⟩
      exact ⟨before, run, rest, shape, name, fun c last => ⟨stops c last, clear c last⟩, ends,
        known, inCode, unremarked, place⟩
  · rw [classify_eq_spans]
    exact Scanner.pairwise_spans names.contains Scanner.start text

end Highlight

end GrammarLens
