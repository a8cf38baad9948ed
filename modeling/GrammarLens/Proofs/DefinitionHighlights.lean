import GrammarLens.Proofs.DefinitionPlaces
import GrammarLens.Proofs.Highlighting
import GrammarLens.Proofs.Reindexing

/-!
Contract: definitions and highlighting speak of the same places.

Owns:
- the documentation ranges of all lines, and the runs that they cover;
- the line that a run is classified in, and how far the scanner has come there;
- the spans of a text by the offsets of their runs;
- which records of a text are highlighted once the text is indexed, and what every span leads back
  to.

## Why the two ways of counting agree

A record has the line and the column of an offset, which come from the newlines before it. A span
has the number of a line after the text is split, where a carriage return may have been dropped at
the end. What is dropped stands behind every run of its line, so the scanner, which counts newlines,
is at the start of a run wherever the classification of that line is.
-/

namespace GrammarLens

namespace Highlight

/-! ## Ranges of all lines -/

/-- The documentation ranges of lines; `inside` tells whether they start inside documentation. -/
def rangesOf : (inside : Bool) → List Text → List (List (Nat × Nat))
  | _, [] => []
  | inside, line :: others =>
    let (ranges, next) := docRanges none (if inside then some 0 else none) 0 line
    ranges :: rangesOf next others

private theorem rangesOf_cons (inside : Bool) (line : Text) (others : List Text) :
    rangesOf inside (line :: others) =
      (docRanges none (if inside then some 0 else none) 0 line).1 ::
        rangesOf (docRanges none (if inside then some 0 else none) 0 line).2 others := rfl

/-- Whether the documentation ranges of its line cover what stands between two offsets. -/
def isDocumented (text : Text) (start finish : Nat) : Bool :=
  let place := text.positionAt start
  (rangesOf false (visibleLines (Text.lines text)))[place.line]?.any fun ranges =>
    ranges.any fun range =>
      range.1 ≤ place.character && place.character + (finish - start) ≤ range.2

/-! ## The line of a run -/

/-- A run stands behind the end of a line that its text starts with. -/
theorem exists_before_of_ending {ending text before run rest : Text}
    (ends : ending = ['\n'] ∨ ending = ['\r', '\n']) (name : IsName run)
    (shape : ending ++ text = before ++ run ++ rest) :
    ∃ passed, before = ending ++ passed ∧ text = passed ++ run ++ rest := by
  rcases ends with rfl | rfl
  · exact Scanner.exists_before_of_not_isNameChar name (by decide) shape
  · obtain ⟨returned, rfl, behind⟩ := Scanner.exists_before_of_not_isNameChar name (by decide) shape
    obtain ⟨passed, rfl, whole⟩ := Scanner.exists_before_of_not_isNameChar name (by decide) behind
    exact ⟨passed, rfl, whole⟩

/-- Outside comments, a range covers a run that comes next exactly in documentation. -/
theorem RangesLeft.any_covers_run_eq {found : List (Nat × Nat) × Bool} {previous : Option Char}
    {column : Nat} {run rest : Text} {mode : Mode}
    (ranges : RangesLeft found previous column (run ++ rest) mode) (name : IsName run)
    (ends : ∀ c, rest.head? = some c → isNameChar c = false) (outside : mode ≠ .comment) :
    (found.1.any fun range => range.1 ≤ column && column + run.length ≤ range.2) =
      decide (mode = .doc) := by
  have whole := congrArg List.length (name.takeWhile_append ends)
  cases run with
  | nil => exact absurd rfl name.1
  | cons c others =>
      have belongs : isNameChar c := name.2 c List.mem_cons_self
      have plain : opensDoc (c :: (others ++ rest)) = false :=
        opensDoc_of_ne (ne_of_isNameChar belongs (by decide))
      rw [← whole]
      exact ranges.any_covers_eq plain belongs outside

/-- In one of the lines, classification comes to a run together with the scanner. -/
inductive Meets (inside : Bool) (lines : List Text) (number : Nat) (run : Text)
    (scanner : Scanner) : Prop
  | intro {index : Nat} {line passed rest : Text} {found : List (Nat × Nat) × Bool}
      (ranges : (rangesOf inside lines)[index]? = some found.1)
      (tracks : Tracks line found (number + index) passed (run ++ rest) scanner)
      (ends : ∀ c, rest.head? = some c → isNameChar c = false) :
      Meets inside lines number run scanner

section Run

variable {before run rest : Text} (name : IsName run)
  (ends : ∀ c, rest.head? = some c → isNameChar c = false)

include name ends

private theorem meets_first (others : List Text) (number : Nat) (inside : Bool)
    (free : '\n' ∉ before ++ (run ++ rest)) :
    Meets inside ((before ++ (run ++ rest)) :: others) number run
      ((Scanner.atLine number inside).after before) := by
  have inLine : '\n' ∉ before := fun newline => free (List.mem_append_left _ newline)
  have start := @tracks_atLine (before ++ (run ++ rest)) number inside
  have reached := start.read inLine (name.head?_append_ne (by decide) rest)
  rw [← Nat.add_zero number] at reached
  exact .intro rfl reached ends

private theorem meets_after {text : Text} {lines : List Text} (lined : Lined text lines)
    (number : Nat) (inside : Bool) (shape : text = before ++ run ++ rest) :
    Meets inside lines number run ((Scanner.atLine number inside).after before) := by
  rw [List.append_assoc] at shape
  induction lined generalizing number inside before with
  | last free =>
      subst shape
      exact meets_first name ends [] number inside free
  | @next line ending text lines free lineEnds later inductionHypothesis =>
      rw [List.append_assoc] at shape
      rcases List.append_eq_append_iff.mp shape with
        ⟨gap, rfl, behind⟩ | ⟨shown, rfl, behind⟩
      · -- The run stands on a later line.
        rw [← List.append_assoc] at behind
        obtain ⟨passed, rfl, whole⟩ := exists_before_of_ending lineEnds name behind
        rw [List.append_assoc] at whole
        have next := inductionHypothesis (number + 1)
          (docRanges none (if inside then some 0 else none) 0 line).2 whole
        rw [Scanner.after_append _ (unquoted_ending lineEnds passed),
          after_ending lineEnds, step_after_atLine free number inside]
        obtain ⟨ranges, tracks, stops⟩ := next
        rw [Nat.add_right_comm] at tracks
        exact .intro (by rwa [rangesOf_cons, List.getElem?_cons_succ]) tracks stops
      · -- The run stands on this line, before the carriage return that may end it.
        have taken : shown.takeWhile isNameChar = run := by
          have stops : ∀ c, (ending ++ text).head? = some c → isNameChar c = false :=
            fun c => not_isNameChar_ending lineEnds
          rw [← Text.takeWhile_append_of_stops stops, ← behind, name.takeWhile_append ends]
        have parts : shown = run ++ shown.dropWhile isNameChar := by
          rw [← taken, List.takeWhile_append_dropWhile]
        rw [parts] at free ⊢
        exact meets_first name (fun c => Text.head?_dropWhile) lines number inside free

/-- A run that no remark precedes on its line stands in code exactly if no range of the line
covers it. -/
theorem mode_after_start_iff (unremarked : ¬ Scanner.Remarked before) :
    (Scanner.start.after before).mode = .code ↔
      isDocumented (before ++ run ++ rest) before.length (before.length + run.length) = false := by
  have meets := meets_after name ends (lined_visibleLines (before ++ run ++ rest)) 0 false rfl
  have started : Scanner.atLine 0 false = Scanner.start := rfl
  rw [started] at meets
  obtain @⟨index, line, passed, lineRest, found, ranges, tracks, lineEnds⟩ := meets
  have place : (before ++ run ++ rest).positionAt before.length = ⟨index, passed.length⟩ := by
    rw [List.append_assoc, ← Scanner.position_after_start, tracks.position, Nat.zero_add]
  have outside : (Scanner.start.after before).mode ≠ .comment := by
    intro commented
    exact unremarked ((Scanner.remarked_after_start before).mp (tracks.comment commented))
  have covered := tracks.ranges.any_covers_run_eq name lineEnds outside
  rw [isDocumented, place]
  simp only [ranges, Option.any_some, Nat.add_sub_cancel_left, covered, decide_eq_false_iff_not]
  cases mode : (Scanner.start.after before).mode <;> simp_all

end Run

/-! ## Spans by offsets -/

/-- The span of what stands between two offsets of one line. -/
def spanOf (text : Text) (start finish : Nat) : Span where
  line := (text.positionAt start).line
  column := (text.positionAt start).character
  length := (finish - start : Nat)

/-- A run that is given a span: a known name in code, with no remark before it on its line and no
shielding character right before it. -/
structure IsShownRun (names : List Text) (text : Text) (start finish : Nat) : Prop where
  run : IsRun text start finish
  known : text.slice start finish ∈ names
  unshielded : ∀ c, text.before? start = some c → isShield c = false
  unremarked : ¬ Scanner.Remarked (text.take start)
  undocumented : isDocumented text start finish = false

private theorem isShownRun_iff {names : List Text} {text : Text} {start finish : Nat}
    (run : IsRun text start finish) (known : text.slice start finish ∈ names) :
    IsShownRun names text start finish ↔
      (∀ c, text.before? start = some c → c ≠ '#' ∧ c ≠ ':' ∧ c ≠ '"') ∧
        ¬ Scanner.Remarked (text.take start) ∧ ¬ isDocumented text start finish := by
  have unshielded : ∀ c, isShield c = false ↔ c ≠ '#' ∧ c ≠ ':' ∧ c ≠ '"' := by
    intro c
    simp [isShield, and_assoc]
  simp only [← unshielded, Bool.not_eq_true]
  constructor
  · exact fun shown => ⟨shown.unshielded, shown.unremarked, shown.undocumented⟩
  · exact fun clear => ⟨run, known, clear.1, clear.2.1, clear.2.2⟩

theorem mem_classify_iff_exists {names : List Text} {text : Text} {span : Span} :
    span ∈ classify names text ↔
      ∃ start finish, IsShownRun names text start finish ∧ span = spanOf text start finish := by
  rw [mem_classify_iff]
  constructor
  · rintro ⟨before, run, rest, rfl, name, stops, ends, known, inCode, unremarked, rfl⟩
    refine ⟨before.length, before.length + run.length, ⟨?_, ?_, ?_, ?_, ?_⟩, ?_⟩
    · exact isRun_append name (fun c last => (stops c last).1) ends
    · rwa [Text.slice_append]
    · rw [List.append_assoc, Text.before?_append]
      exact fun c last => (stops c last).2
    · rwa [List.append_assoc, List.take_left]
    · exact (mode_after_start_iff name ends unremarked).mp inCode
    · rw [spanOf, Nat.add_sub_cancel_left]
  · rintro ⟨start, finish, ⟨run, known, unshielded, unremarked, undocumented⟩, rfl⟩
    obtain ⟨before, name, rest, rfl, isName, stops, ends, rfl, rfl⟩ := run.exists_split
    rw [Text.slice_append] at known
    rw [List.append_assoc, Text.before?_append] at unshielded
    rw [List.append_assoc, List.take_left] at unremarked
    refine ⟨before, name, rest, rfl, isName, ?_, ends, known, ?_, unremarked, ?_⟩
    · exact fun c last => ⟨stops c last, unshielded c last⟩
    · exact (mode_after_start_iff isName ends unremarked).mpr undocumented
    · rw [spanOf, Nat.add_sub_cancel_left]

section Place

variable {text : Text} {start finish : Nat} (run : IsRun text start finish)

include run

theorem offsetAt_spanOf :
    text.offsetAt (spanOf text start finish).line (spanOf text start finish).column = start ∧
    text.offsetAt (spanOf text start finish).line
      ((spanOf text start finish).column + (spanOf text start finish).length) = finish := by
  have last := Text.offsetAt_positionAt run.isAddressable_finish
  rw [run.positionAt_finish, Int.natCast_add] at last
  exact ⟨Text.offsetAt_positionAt run.isAddressable_start, last⟩

private theorem spanOf_mem_classify_iff {names : List Text} :
    spanOf text start finish ∈ classify names text ↔ IsShownRun names text start finish := by
  constructor
  · intro member
    obtain ⟨otherStart, otherFinish, shown, same⟩ := mem_classify_iff_exists.mp member
    have here := offsetAt_spanOf run
    have there := offsetAt_spanOf shown.run
    rw [same] at here
    rwa [← here.1, ← here.2, there.1, there.2]
  · intro shown
    exact mem_classify_iff_exists.mpr ⟨start, finish, shown, rfl⟩

end Place

end Highlight

/-! ## Definitions -/

theorem Table.mem_keys_putAll {κ ν : Type} [BEq κ] [LawfulBEq κ] (table : Table κ ν)
    {entries : List (κ × ν)} {entry : κ × ν} (member : entry ∈ entries) :
    entry.1 ∈ (table.putAll entries).keys := by
  have present : entry ∈ entries.filter fun other => other.1 == entry.1 :=
    List.mem_filter.mpr ⟨member, beq_self_eq_true _⟩
  obtain ⟨last, found⟩ := Option.ne_none_iff_exists'.mp
    (mt List.getLast?_eq_none_iff.mp (List.ne_nil_of_mem present))
  rw [mem_keys_iff, find?_putAll, found]
  exact ⟨last.2, rfl⟩

/-- A record of a text is a record of one of its runs. -/
theorem exists_records_of_mem_extractDefinitions {text uri : Text} {entry : DefinitionRecord}
    (member : entry ∈ extractDefinitions text uri) :
    ∃ start finish, IsRun text start finish ∧ Records text uri start finish entry := by
  obtain ⟨⟨start, name, doc⟩, found, rfl⟩ := List.mem_map.mp member
  obtain ⟨finish, operator, defines, rfl, documented⟩ := mem_definedNames_iff.mp found
  exact ⟨start, finish, defines.run, defines.run.records uri doc⟩

theorem Records.spanOf_eq {text uri : Text} {start finish : Nat} {entry : DefinitionRecord}
    (records : Records text uri start finish entry) (run : IsRun text start finish) :
    Highlight.spanOf text start finish =
      ⟨entry.range.line, entry.range.character,
        entry.range.endCharacter - entry.range.character, 0⟩ := by
  have wide : entry.range.endCharacter - entry.range.character = (finish - start : Nat) := by
    rw [records.range]
    simp only [Text.rangeOf, run.positionAt_finish]
    omega
  rw [wide, records.range]
  rfl

namespace Workspace

private theorem name_mem_names_update (workspace : Workspace) {uri text : Text}
    {entry : DefinitionRecord} (member : entry ∈ extractDefinitions text uri) :
    entry.name ∈ (workspace.update uri text).definitions.names := by
  have winners : (workspace.update uri text).definitions.winners =
      workspace.definitions.winners.putAll
        ((extractDefinitions text uri).map fun entry => (entry.name, siteOf entry)) := by
    rw [← DefinitionIndex.winners_foldl_addRecord]
    exact congrArg (fun tables : Tables => tables.definitions.winners) (update_tables ..)
  rw [DefinitionIndex.names, winners]
  exact Table.mem_keys_putAll _ (List.mem_map.mpr ⟨entry, member, rfl⟩)

/-- Once a text is indexed, the record of a definition is highlighted at its own place, unless the
name stands in documentation, behind a remark or right behind a shielding character. Every span
leads back to a whole run that is a defined name. -/
theorem update_highlights_definitions (workspace : Workspace) (uri text : Text) :
    (∀ entry ∈ extractDefinitions text uri, ∃ start finish, IsRun text start finish ∧
      Records text uri start finish entry ∧
      (⟨entry.range.line, entry.range.character,
          entry.range.endCharacter - entry.range.character, 0⟩ ∈
          (workspace.update uri text).spans text ↔
        (∀ c, text.before? start = some c → c ≠ '#' ∧ c ≠ ':' ∧ c ≠ '"') ∧
        ¬ Highlight.Scanner.Remarked (text.take start) ∧
        ¬ Highlight.isDocumented text start finish)) ∧
    ∀ span ∈ (workspace.update uri text).spans text, ∃ start finish, IsRun text start finish ∧
      text.offsetAt span.line span.column = start ∧
      text.offsetAt span.line (span.column + span.length) = finish ∧
      text.slice start finish ∈ (workspace.update uri text).definitions.names := by
  refine ⟨?_, ?_⟩
  · intro entry member
    obtain ⟨start, finish, run, records⟩ := exists_records_of_mem_extractDefinitions member
    refine ⟨start, finish, run, records, ?_⟩
    have known := workspace.name_mem_names_update member
    rw [records.name] at known
    rw [← records.spanOf_eq run, spans, Highlight.spanOf_mem_classify_iff run,
      Highlight.isShownRun_iff run known]
  · intro span member
    obtain ⟨start, finish, shown, rfl⟩ := Highlight.mem_classify_iff_exists.mp member
    have place := Highlight.offsetAt_spanOf shown.run
    exact ⟨start, finish, shown.run, place.1, place.2, shown.known⟩

/-- Lines that end in a carriage return and a newline, documentation that goes on over one of them,
an escaped semicolon and one that is not. -/
def mixedDefinitions : Text :=
  "A := \"\"\"d\r\nB\"\"\" .\r\nx \\; B := A ; C := D.".toList

theorem update_highlights_definitions_mixedDefinitions :
    ⟨['B'], ['u'], ⟨2, 5, 2, 6⟩, none⟩ ∈ extractDefinitions mixedDefinitions ['u'] ∧
    ⟨2, 5, 1, 0⟩ ∈ ((empty .standard).update ['u'] mixedDefinitions).spans mixedDefinitions ∧
    ∃ start finish, IsRun mixedDefinitions start finish ∧
      mixedDefinitions.offsetAt 2 10 = start ∧ mixedDefinitions.offsetAt 2 11 = finish ∧
      mixedDefinitions.slice start finish ∈
        ((empty .standard).update ['u'] mixedDefinitions).definitions.names := by
  have agrees := update_highlights_definitions (empty .standard) ['u'] mixedDefinitions
  have recorded : ⟨['B'], ['u'], ⟨2, 5, 2, 6⟩, none⟩ ∈
      extractDefinitions mixedDefinitions ['u'] := by decide
  have reused : ⟨2, 10, 1, 0⟩ ∈
      ((empty .standard).update ['u'] mixedDefinitions).spans mixedDefinitions := by decide
  refine ⟨recorded, ?_, agrees.2 _ reused⟩
  obtain ⟨start, finish, run, records, shown⟩ := agrees.1 _ recorded
  have first : start = 24 := records.start.symm.trans (by decide)
  have last : finish = 25 := records.finish.symm.trans (by decide)
  subst first last
  refine shown.mpr ⟨?_, ?_, by decide⟩
  · intro c previous
    have blank : mixedDefinitions.before? 24 = some ' ' := by decide
    have same : ' ' = c := Option.some.inj (blank.symm.trans previous)
    subst same
    decide
  · rw [← Highlight.Scanner.remarked_after_start]
    decide

end Workspace

end GrammarLens
