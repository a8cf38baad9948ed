import GrammarLens.Proofs.HighlightScan
import GrammarLens.Proofs.NameRun
import Mathlib.Data.Nat.Find

/-!
Contract: which documentation block follows an offset.

Owns:
- what may stand between a block and the period behind it, said by its parts;
- what is left of a text without the blanks around it;
- the first place from an offset on where something holds;
- the closings of a block, and the least one;
- the delimiters of a text from an offset on, left to right and without overlap;
- where a definition that is read from an offset ends;
- the block that is found: the first opening before that end which has a closing at all, up to its
  least closing.

Does not own: whether what is found is the inside of one block.

## Why no choice is left

Layout, names, annotations and periods begin with different characters, so the parts behind a
closing delimiter can be read without going back. What the search has to decide is only which
opening and which closing it takes, and both are the first that will do.
-/

namespace GrammarLens.DocBlock

/-! ## Behind a closing delimiter -/

/-- A text in square brackets without a colon, semicolon or bar, or a name, which may be empty. -/
def IsAnnotation (text : Text) : Prop :=
  (∃ inner, text = '[' :: (inner ++ [']']) ∧ ∀ c ∈ inner, c ≠ ':' ∧ c ≠ ';' ∧ c ≠ '|') ∨
    ∀ c ∈ text, isNameChar c

/-- A text that starts with layout, an annotation or a name, layout and a period. -/
def IsEnding (text : Text) : Prop :=
  ∃ layout annotated gap rest, text = layout ++ (annotated ++ (gap ++ '.' :: rest)) ∧
    (∀ c ∈ layout, isLayout c) ∧ IsAnnotation annotated ∧ ∀ c ∈ gap, isLayout c

private theorem isLayout_of_isNameChar {c : Char} (belongs : isNameChar c) :
    isLayout c = false := by
  by_contra layout
  simp only [isLayout, Bool.or_eq_true, beq_iff_eq, Bool.not_eq_false] at layout
  rcases layout with (rfl | rfl) | rfl
  · exact absurd belongs (by decide)
  · exact absurd belongs (by decide)
  · exact absurd belongs (by decide)

theorem dropWhile_isLayout_append {layout rest : Text} (whole : ∀ c ∈ layout, isLayout c) {c : Char}
    (stops : isLayout c = false) : (layout ++ c :: rest).dropWhile isLayout = c :: rest := by
  rw [List.dropWhile_append_of_pos whole, List.dropWhile_cons_of_neg (by simp [stops])]

theorem periodFollows_iff {text : Text} :
    periodFollows text ↔ ∃ gap rest, text = gap ++ '.' :: rest ∧ ∀ c ∈ gap, isLayout c := by
  rw [periodFollows, decide_eq_true_eq]
  constructor
  · intro next
    obtain ⟨rest, behind⟩ := List.head?_eq_some_iff.mp next
    refine ⟨text.takeWhile isLayout, rest, ?_, fun c member => List.mem_takeWhile_imp member⟩
    rw [← behind, List.takeWhile_append_dropWhile]
  · rintro ⟨gap, rest, rfl, whole⟩
    rw [dropWhile_isLayout_append whole (by decide), List.head?_cons]

theorem annotationCloses_iff {text : Text} :
    annotationCloses text ↔
      ∃ inner rest, text = inner ++ ']' :: rest ∧
        (∀ c ∈ inner, c ≠ ':' ∧ c ≠ ';' ∧ c ≠ '|') ∧ periodFollows rest := by
  induction text with
  | nil => simp [annotationCloses]
  | cons c others inductionHypothesis =>
      simp only [annotationCloses, Bool.or_eq_true, Bool.and_eq_true, decide_eq_true_eq, bne_iff_ne,
        inductionHypothesis]
      constructor
      · rintro (⟨rfl, follows⟩ | ⟨⟨⟨colon, semicolon⟩, bar⟩, inner, rest, rfl, plain, follows⟩)
        · exact ⟨[], others, rfl, by simp, follows⟩
        · refine ⟨c :: inner, rest, rfl, ?_, follows⟩
          exact List.forall_mem_cons.mpr ⟨⟨colon, semicolon, bar⟩, plain⟩
      · rintro ⟨inner, rest, split, plain, follows⟩
        cases inner with
        | nil =>
            obtain ⟨rfl, rfl⟩ := List.cons.inj split
            exact .inl ⟨rfl, follows⟩
        | cons first inner =>
            obtain ⟨rfl, rfl⟩ := List.cons.inj split
            obtain ⟨⟨colon, semicolon, bar⟩, others⟩ := List.forall_mem_cons.mp plain
            exact .inr ⟨⟨⟨colon, semicolon⟩, bar⟩, inner, rest, rfl, others, follows⟩

theorem closesDefinition_bracket {text rest : Text}
    (bracket : text.dropWhile isLayout = '[' :: rest) :
    closesDefinition text = annotationCloses rest := by
  rw [closesDefinition, bracket]
  rfl

theorem closesDefinition_plain {text : Text} (plain : (text.dropWhile isLayout).head? ≠ some '[') :
    closesDefinition text = periodFollows ((text.dropWhile isLayout).dropWhile isNameChar) := by
  unfold closesDefinition
  split
  · next bracket => simp [bracket] at plain
  · rfl

private theorem isEnding_of_closesDefinition {text : Text} (closes : closesDefinition text) :
    IsEnding text := by
  have parts : text.takeWhile isLayout ++ text.dropWhile isLayout = text :=
    List.takeWhile_append_dropWhile
  have layout : ∀ c ∈ text.takeWhile isLayout, isLayout c := fun c => List.mem_takeWhile_imp
  by_cases bracketed : (text.dropWhile isLayout).head? = some '['
  · obtain ⟨others, bracket⟩ := List.head?_eq_some_iff.mp bracketed
    rw [closesDefinition_bracket bracket] at closes
    obtain ⟨inner, behind, rfl, plain, follows⟩ := annotationCloses_iff.mp closes
    obtain ⟨gap, rest, rfl, whole⟩ := periodFollows_iff.mp follows
    refine ⟨text.takeWhile isLayout, '[' :: (inner ++ [']']), gap, rest, ?_, layout,
      .inl ⟨inner, rfl, plain⟩, whole⟩
    rw [bracket] at parts
    rw [List.cons_append, List.append_assoc]
    exact parts.symm
  · rw [closesDefinition_plain bracketed] at closes
    obtain ⟨gap, rest, behind, whole⟩ := periodFollows_iff.mp closes
    refine ⟨text.takeWhile isLayout, (text.dropWhile isLayout).takeWhile isNameChar, gap, rest, ?_,
      layout, .inr fun c => List.mem_takeWhile_imp, whole⟩
    rw [← behind, List.takeWhile_append_dropWhile, parts]

private theorem closesDefinition_of_isEnding {text : Text} (ending : IsEnding text) :
    closesDefinition text := by
  obtain ⟨layout, annotated, gap, rest, rfl, whole, annotation, blank⟩ := ending
  rcases annotation with ⟨inner, rfl, plain⟩ | named
  · have bracket :
        (layout ++ (('[' :: (inner ++ [']'])) ++ (gap ++ '.' :: rest))).dropWhile isLayout =
          '[' :: (inner ++ ']' :: (gap ++ '.' :: rest)) := by
      rw [List.cons_append, dropWhile_isLayout_append whole (by decide), List.append_assoc]
      rfl
    rw [closesDefinition_bracket bracket]
    exact annotationCloses_iff.mpr
      ⟨inner, gap ++ '.' :: rest, rfl, plain, periodFollows_iff.mpr ⟨gap, rest, rfl, blank⟩⟩
  · cases annotated with
    | nil =>
        -- The two stretches of layout are one, and no name stands between them.
        have joined : (layout ++ ([] ++ (gap ++ '.' :: rest))).dropWhile isLayout =
            '.' :: rest := by
          rw [List.nil_append, ← List.append_assoc]
          apply dropWhile_isLayout_append _ (by decide)
          intro c member
          exact (List.mem_append.mp member).elim (whole c) (blank c)
        rw [closesDefinition_plain (by rw [joined]; simp), joined]
        rfl
    | cons c name =>
        have belongs : isNameChar c := named c List.mem_cons_self
        have start : (layout ++ ((c :: name) ++ (gap ++ '.' :: rest))).dropWhile isLayout =
            (c :: name) ++ (gap ++ '.' :: rest) :=
          dropWhile_isLayout_append whole (isLayout_of_isNameChar belongs)
        have unbracketed : c ≠ '[' := ne_of_isNameChar belongs (by decide)
        have behind : ((c :: name) ++ (gap ++ '.' :: rest)).dropWhile isNameChar =
            gap ++ '.' :: rest := by
          rw [List.dropWhile_append_of_pos named]
          cases gap with
          | nil => exact List.dropWhile_cons_of_neg (by decide)
          | cons d gap =>
              have apart : ¬ isNameChar d := by
                intro name
                simpa [isLayout_of_isNameChar name] using blank d List.mem_cons_self
              exact List.dropWhile_cons_of_neg apart
        rw [closesDefinition_plain (by rw [start]; simp [unbracketed]), start, behind]
        exact periodFollows_iff.mpr ⟨gap, rest, rfl, blank⟩

private theorem closesDefinition_iff {text : Text} : closesDefinition text ↔ IsEnding text :=
  ⟨isEnding_of_closesDefinition, closesDefinition_of_isEnding⟩

/-! ## Trimming -/

/-- A text without the blanks at its two ends. -/
structure IsTrimmed (text doc : Text) : Prop where
  parts : ∃ leading trailing, text = leading ++ (doc ++ trailing) ∧
    (∀ c ∈ leading, Text.isBlank c) ∧ ∀ c ∈ trailing, Text.isBlank c
  starts : ∀ {c}, doc.head? = some c → Text.isBlank c = false
  ends : ∀ {c}, doc.getLast? = some c → Text.isBlank c = false

theorem isTrimmed_trim (text : Text) : IsTrimmed text (Text.trim text) := by
  have inner : text.dropWhile Text.isBlank =
      Text.trim text ++ Text.trailing Text.isBlank (text.dropWhile Text.isBlank) :=
    (Text.dropTrailing_append_trailing Text.isBlank _).symm
  constructor
  · refine ⟨text.takeWhile Text.isBlank, Text.trailing Text.isBlank (text.dropWhile Text.isBlank),
      ?_, fun c => List.mem_takeWhile_imp, fun c => Text.mem_trailing⟩
    rw [← inner, List.takeWhile_append_dropWhile]
  · intro c first
    have start : (text.dropWhile Text.isBlank).head? = some c := by
      rw [inner, List.head?_append, first, Option.some_or]
    exact Text.head?_dropWhile start
  · intro c last
    exact Text.getLast?_dropTrailing last

theorem IsTrimmed.eq_trim {text doc : Text} (trimmed : IsTrimmed text doc) :
    doc = Text.trim text := by
  obtain ⟨leading, trailing, rfl, before, after⟩ := trimmed.parts
  have inner : (leading ++ (doc ++ trailing)).dropWhile Text.isBlank =
      (doc ++ trailing).dropWhile Text.isBlank := List.dropWhile_append_of_pos before
  have vacant := Text.dropTrailing_of_forall after
  rw [Text.trim, Text.trimBoth, inner]
  cases doc with
  | nil =>
      rw [List.nil_append, List.dropWhile_eq_nil_iff.mpr after]
      rfl
  | cons c others =>
      have stays : ¬ Text.isBlank c := by simp [trimmed.starts rfl]
      rw [List.cons_append, List.dropWhile_cons_of_neg stays, ← List.cons_append,
        Text.dropTrailing_append fun c => trimmed.ends, vacant, List.append_nil]

private theorem isTrimmed_iff {text doc : Text} : IsTrimmed text doc ↔ doc = Text.trim text := by
  constructor
  · exact IsTrimmed.eq_trim
  · rintro rfl
    exact isTrimmed_trim text

/-! ## First places -/

/-- The first place from `start` on where something holds. -/
structure IsFirstFrom (holds : Nat → Prop) (start place : Nat) : Prop where
  reached : start ≤ place
  here : holds place
  first : ∀ earlier, start ≤ earlier → earlier < place → ¬ holds earlier

section First

variable {holds : Nat → Prop} {start place other : Nat}

theorem IsFirstFrom.of_start (here : holds start) : IsFirstFrom holds start start :=
  ⟨Nat.le_refl _, here, fun _ reached before => absurd before (Nat.not_lt.mpr reached)⟩

theorem not_from_of_succ (notHere : ¬ holds start)
    (notLater : ∀ place, start + 1 ≤ place → ¬ holds place) :
    ∀ place, start ≤ place → ¬ holds place := by
  intro place reached
  rcases Nat.eq_or_lt_of_le reached with rfl | later
  · exact notHere
  · exact notLater place later

theorem IsFirstFrom.of_succ (notHere : ¬ holds start)
    (found : IsFirstFrom holds (start + 1) place) : IsFirstFrom holds start place := by
  refine ⟨Nat.le_of_succ_le found.reached, found.here, ?_⟩
  intro earlier reached before
  rcases Nat.eq_or_lt_of_le reached with rfl | later
  · exact notHere
  · exact found.first earlier later before

theorem IsFirstFrom.unique (left : IsFirstFrom holds start place)
    (right : IsFirstFrom holds start other) : place = other := by
  rcases Nat.lt_trichotomy place other with before | same | after
  · exact absurd left.here (right.first place left.reached before)
  · exact same
  · exact absurd right.here (left.first other right.reached after)

theorem exists_isFirstFrom (reached : start ≤ place) (here : holds place) :
    ∃ first, IsFirstFrom holds start first := by
  classical
  have present : ∃ other, start ≤ other ∧ holds other := ⟨place, reached, here⟩
  obtain ⟨behind, there⟩ := Nat.find_spec present
  refine ⟨Nat.find present, behind, there, ?_⟩
  intro earlier reached before holdsThere
  exact Nat.find_min present before ⟨reached, holdsThere⟩

end First

/-! ## Closings -/

/-- A delimiter starts at a place. -/
def DelimiterAt (text : Text) (place : Nat) : Prop := opensDoc (text.drop place)

theorem opensDoc_iff {text : Text} : opensDoc text ↔ ['"', '"', '"'] <+: text :=
  List.isPrefixOf_iff_prefix

/-- The block that opens at `opening` can be closed at `closing`: a delimiter stands there, and
behind it the definition ends. -/
structure Closes (text : Text) (opening closing : Nat) : Prop where
  behind : opening + 3 ≤ closing
  delimiter : DelimiterAt text closing
  ending : IsEnding (text.drop (closing + 3))

/-- The first place where a block can be closed. -/
structure IsLeastClosing (text : Text) (opening closing : Nat) : Prop
    extends Closes text opening closing where
  least : ∀ earlier, earlier < closing → ¬ Closes text opening earlier

/-- A block that is read from right behind its opening delimiter can be closed at a place. -/
def ClosesAt (text : Text) (place : Nat) : Prop :=
  DelimiterAt text place ∧ IsEnding (text.drop (place + 3))

private theorem closesAt_zero_iff {c : Char} {rest : Text} :
    ClosesAt (c :: rest) 0 ↔ opensDoc (c :: rest) && closesDefinition (rest.drop 2) := by
  rw [Bool.and_eq_true, closesDefinition_iff]
  rfl

theorem closing?_eq_some_iff {text : Text} {place : Nat} :
    closing? text = some place ↔ IsFirstFrom (ClosesAt text) 0 place := by
  induction text generalizing place with
  | nil =>
      simp only [closing?, reduceCtorEq, false_iff]
      intro first
      have delimiter : opensDoc (([] : Text).drop place) := first.here.1
      simp [opensDoc] at delimiter
  | cons c rest inductionHypothesis =>
      rw [closing?]
      split
      · next here =>
        have closes : ClosesAt (c :: rest) 0 := closesAt_zero_iff.mpr here
        constructor
        · intro found
          obtain rfl := Option.some.inj found
          exact .of_start closes
        · intro first
          cases place with
          | zero => rfl
          | succ place => exact absurd closes (first.first 0 (Nat.le_refl _) (Nat.succ_pos _))
      · next elsewhere =>
        have opens : ¬ ClosesAt (c :: rest) 0 :=
          fun closes => elsewhere (closesAt_zero_iff.mp closes)
        cases place with
        | zero =>
            simp only [Option.map_eq_some_iff, Nat.add_eq_zero_iff, Nat.one_ne_zero, and_false,
              exists_false, false_iff]
            exact fun first => opens first.here
        | succ place =>
            have shifted : (closing? rest).map (· + 1) = some (place + 1) ↔
                closing? rest = some place := by simp
            rw [shifted, inductionHypothesis]
            constructor
            · intro first
              refine ⟨Nat.zero_le _, first.here, ?_⟩
              intro earlier reached before
              cases earlier with
              | zero => exact opens
              | succ earlier =>
                  exact first.first earlier (Nat.zero_le _) (Nat.lt_of_succ_lt_succ before)
            · intro first
              refine ⟨Nat.zero_le _, first.here, ?_⟩
              intro earlier reached before
              exact first.first (earlier + 1) (Nat.zero_le _) (Nat.succ_lt_succ before)

private theorem closing?_eq_none_iff {text : Text} :
    closing? text = none ↔ ∀ place, ¬ ClosesAt text place := by
  rw [Option.eq_none_iff_forall_ne_some]
  constructor
  · intro none place closes
    obtain ⟨first, found⟩ := exists_isFirstFrom (Nat.zero_le place) closes
    exact none first (closing?_eq_some_iff.mpr found)
  · intro never place found
    exact never place (closing?_eq_some_iff.mp found).here

section Block

variable {text : Text} {opening : Nat}

theorem closes_iff {closing : Nat} :
    Closes text opening closing ↔
      ∃ place, closing = opening + 3 + place ∧ ClosesAt (text.drop (opening + 3)) place := by
  have shifted : ∀ place, ClosesAt (text.drop (opening + 3)) place ↔
      DelimiterAt text (opening + 3 + place) ∧ IsEnding (text.drop (opening + 3 + place + 3)) := by
    intro place
    rw [ClosesAt, DelimiterAt, DelimiterAt, List.drop_drop, List.drop_drop, Nat.add_assoc _ place 3]
  constructor
  · intro closes
    have behind := closes.behind
    refine ⟨closing - (opening + 3), by omega, (shifted _).mpr ?_⟩
    rw [show opening + 3 + (closing - (opening + 3)) = closing by omega]
    exact ⟨closes.delimiter, closes.ending⟩
  · rintro ⟨place, rfl, closesAt⟩
    obtain ⟨delimiter, ending⟩ := (shifted place).mp closesAt
    exact ⟨by omega, delimiter, ending⟩

private theorem body?_eq_none_iff :
    body? (text.drop (opening + 3)) = none ↔ ∀ closing, ¬ Closes text opening closing := by
  rw [body?, Option.map_eq_none_iff, closing?_eq_none_iff]
  constructor
  · intro never closing closes
    obtain ⟨place, -, closesAt⟩ := closes_iff.mp closes
    exact never place closesAt
  · intro never place closesAt
    exact never _ (closes_iff.mpr ⟨place, rfl, closesAt⟩)

/-- The documentation of a block reaches up to its least closing. -/
theorem body?_eq_some_iff {doc : Text} :
    body? (text.drop (opening + 3)) = some doc ↔
      ∃ closing, IsLeastClosing text opening closing ∧
        IsTrimmed (text.slice (opening + 3) closing) doc := by
  have shown : ∀ place, (text.drop (opening + 3)).take place =
      text.slice (opening + 3) (opening + 3 + place) := by
    intro place
    rw [Text.slice, List.take_drop]
  simp only [body?, Option.map_eq_some_iff, isTrimmed_iff]
  constructor
  · rintro ⟨place, found, rfl⟩
    have first := closing?_eq_some_iff.mp found
    refine ⟨opening + 3 + place, ⟨closes_iff.mpr ⟨place, rfl, first.here⟩, ?_⟩, by rw [shown]⟩
    intro earlier before closes
    obtain ⟨other, rfl, closesThere⟩ := closes_iff.mp closes
    exact first.first other (Nat.zero_le _) (by omega) closesThere
  · rintro ⟨closing, leastClosing, rfl⟩
    obtain ⟨place, rfl, closesAt⟩ := closes_iff.mp leastClosing.toCloses
    refine ⟨place, closing?_eq_some_iff.mpr ⟨Nat.zero_le _, closesAt, ?_⟩, by rw [shown]⟩
    intro earlier reached before closesThere
    exact leastClosing.least _ (by omega) (closes_iff.mpr ⟨earlier, rfl, closesThere⟩)

end Block

/-! ## Delimiters -/

/-- The delimiters of a text that starts at `offset`. -/
def delimitersFrom (offset : Nat) (text : Text) : List Nat :=
  (text.occurrencesFrom (fun suffix => if opensDoc suffix then some ((), 3) else none) offset
    0).map Prod.fst

theorem delimitersFrom_delimiter (offset : Nat) (rest : Text) :
    delimitersFrom offset ('"' :: '"' :: '"' :: rest) =
      offset :: delimitersFrom (offset + 3) rest := by
  simp [delimitersFrom, Text.occurrencesFrom, opensDoc]

theorem delimitersFrom_plain {c : Char} {rest : Text} (plain : opensDoc (c :: rest) = false)
    (offset : Nat) : delimitersFrom offset (c :: rest) = delimitersFrom (offset + 1) rest := by
  simp [delimitersFrom, Text.occurrencesFrom, plain]

private theorem filter_delimitersFrom_eq_nil {offset count : Nat} (short : count < 3)
    (text : Text) :
    ((delimitersFrom offset text).filter fun place => place + 3 ≤ offset + count) = [] := by
  rw [List.filter_eq_nil_iff]
  intro place member
  obtain ⟨occurrence, occurs, rfl⟩ := List.mem_map.mp member
  have behind := Text.le_of_mem_occurrencesFrom occurs
  simp only [decide_eq_true_eq]
  omega

/-- In a text that is cut off the delimiters are those that lie before the cut. -/
theorem delimitersFrom_take (offset count : Nat) (text : Text) :
    delimitersFrom offset (text.take count) =
      (delimitersFrom offset text).filter fun place => place + 3 ≤ offset + count := by
  induction text using Highlight.readingInduction generalizing offset count with
  | nil => simp [delimitersFrom, Text.occurrencesFrom]
  | delimiter rest inductionHypothesis =>
      by_cases short : count < 3
      · rw [filter_delimitersFrom_eq_nil short]
        obtain rfl | rfl | rfl : count = 0 ∨ count = 1 ∨ count = 2 := by omega
        · rfl
        · rfl
        · rfl
      · obtain ⟨further, rfl⟩ := Nat.exists_eq_add_of_le' (Nat.le_of_not_lt short)
        have moved : offset + 3 + further = offset + (further + 3) := by omega
        rw [List.take_succ_cons, List.take_succ_cons, List.take_succ_cons,
          delimitersFrom_delimiter, delimitersFrom_delimiter, inductionHypothesis,
          List.filter_cons_of_pos (by simp), moved]
  | char c rest plain inductionHypothesis =>
      cases count with
      | zero => exact (filter_delimitersFrom_eq_nil (by decide) _).symm
      | succ count =>
          have stillPlain : opensDoc (c :: rest.take count) = false := by
            rw [Bool.eq_false_iff, ne_eq, opensDoc_iff] at plain ⊢
            exact fun begins => plain (begins.trans (List.take_prefix (count + 1) (c :: rest)))
          have moved : offset + 1 + count = offset + (count + 1) := by omega
          rw [List.take_succ_cons, delimitersFrom_plain stillPlain, delimitersFrom_plain plain,
            inductionHypothesis, moved]

private theorem delimitersFrom_add (start offset : Nat) (text : Text) :
    delimitersFrom (start + offset) text = (delimitersFrom offset text).map (start + ·) := by
  induction text using Highlight.readingInduction generalizing offset with
  | nil => rfl
  | delimiter rest inductionHypothesis =>
      rw [delimitersFrom_delimiter, delimitersFrom_delimiter, Nat.add_assoc, inductionHypothesis,
        List.map_cons]
  | char c rest plain inductionHypothesis =>
      rw [delimitersFrom_plain plain, delimitersFrom_plain plain, Nat.add_assoc,
        inductionHypothesis]

/-- The delimiters of a text from a place on, each the first behind the one before it. -/
inductive Enumerates (text : Text) : Nat → List Nat → Prop
  | done {start : Nat} (none : ∀ place, start ≤ place → ¬ DelimiterAt text place) :
      Enumerates text start []
  | next {start place : Nat} {others : List Nat}
      (found : IsFirstFrom (DelimiterAt text) start place)
      (behind : Enumerates text (place + 3) others) : Enumerates text start (place :: others)

namespace Enumerates

variable {text : Text} {start : Nat} {openings others : List Nat}

theorem of_succ (notHere : ¬ DelimiterAt text start)
    (enumerates : Enumerates text (start + 1) openings) : Enumerates text start openings := by
  cases enumerates with
  | done none => exact done (not_from_of_succ notHere none)
  | next found behind => exact next (found.of_succ notHere) behind

theorem of_drop_eq {suffix : Text} (rest : text.drop start = suffix) :
    Enumerates text start (delimitersFrom start suffix) := by
  induction suffix using Highlight.readingInduction generalizing start with
  | nil =>
      apply done
      intro place reached delimiter
      have nothing : text.drop place = [] := by
        rw [List.drop_eq_nil_iff] at rest ⊢
        omega
      simp [DelimiterAt, nothing, opensDoc] at delimiter
  | delimiter behind inductionHypothesis =>
      have here : DelimiterAt text start := by
        rw [DelimiterAt, rest]
        rfl
      have further : text.drop (start + 3) = behind := by
        rw [← List.drop_drop, rest]
        rfl
      rw [delimitersFrom_delimiter]
      exact next (.of_start here) (inductionHypothesis further)
  | char c behind plain inductionHypothesis =>
      have notHere : ¬ DelimiterAt text start := by simp [DelimiterAt, rest, plain]
      have further : text.drop (start + 1) = behind := by
        rw [← List.drop_drop, rest]
        rfl
      rw [delimitersFrom_plain plain]
      exact of_succ notHere (inductionHypothesis further)

theorem unique (left : Enumerates text start openings) (right : Enumerates text start others) :
    openings = others := by
  induction left generalizing others with
  | done none =>
      cases right with
      | done => rfl
      | next found => exact absurd found.here (none _ found.reached)
  | next found behind inductionHypothesis =>
      cases right with
      | done none => exact absurd found.here (none _ found.reached)
      | next otherFound otherBehind =>
          obtain rfl := found.unique otherFound
          rw [inductionHypothesis otherBehind]

theorem delimiterAt_of_mem {opening : Nat} (enumerates : Enumerates text start openings)
    (member : opening ∈ openings) : start ≤ opening ∧ DelimiterAt text opening := by
  induction enumerates with
  | done none => simp at member
  | next found behind inductionHypothesis =>
      rcases List.mem_cons.mp member with rfl | later
      · exact ⟨found.reached, found.here⟩
      · obtain ⟨further, delimiter⟩ := inductionHypothesis later
        have reached := found.reached
        exact ⟨by omega, delimiter⟩

end Enumerates

/-! ## The end of a definition -/

/-- A period at a place that a character follows which is not one of a name. -/
def EndsAt (text : Text) (place : Nat) : Prop :=
  text[place]? = some '.' ∧ ∃ next, text[place + 1]? = some next ∧ isNameChar next = false

/-- Where the definition that is read from `start` ends: at the first period that ends one, or with
the text. -/
def IsLimit (text : Text) (start limit : Nat) : Prop :=
  IsFirstFrom (EndsAt text) start limit ∨
    limit = text.length ∧ ∀ place, start ≤ place → ¬ EndsAt text place

theorem IsLimit.unique {text : Text} {start limit other : Nat} (left : IsLimit text start limit)
    (right : IsLimit text start other) : limit = other := by
  rcases left with found | ⟨rfl, none⟩
  · rcases right with otherFound | ⟨-, none⟩
    · exact found.unique otherFound
    · exact absurd found.here (none _ found.reached)
  · rcases right with found | ⟨rfl, -⟩
    · exact absurd found.here (none _ found.reached)
    · rfl

theorem not_endsAt_of_length_le {text : Text} {start : Nat} (outside : text.length ≤ start) :
    ∀ place, start ≤ place → ¬ EndsAt text place := by
  intro place reached ends
  have nothing : text[place]? = none := List.getElem?_eq_none (by omega)
  exact absurd (nothing.symm.trans ends.1) (by simp)

private theorem endsAt_iff {text rest : Text} {start : Nat} {c : Char}
    (suffix : text.drop start = c :: rest) :
    EndsAt text start ↔ c = '.' && rest.head?.any fun next => !isNameChar next := by
  have here : text[start]? = some c := by
    rw [← List.head?_drop, suffix, List.head?_cons]
  have next : text[start + 1]? = rest.head? := by
    rw [← List.head?_drop, ← List.drop_drop, suffix]
    rfl
  simp [EndsAt, here, next, Option.any_eq_true]

theorem isLimit_of_drop_eq {text suffix : Text} {start : Nat} (inside : start ≤ text.length)
    (rest : text.drop start = suffix) : IsLimit text start (start + periodLimit suffix) := by
  induction suffix generalizing start with
  | nil =>
      have atEnd : text.length ≤ start := List.drop_eq_nil_iff.mp rest
      exact .inr ⟨Nat.le_antisymm inside atEnd, not_endsAt_of_length_le atEnd⟩
  | cons c behind inductionHypothesis =>
      have ends := endsAt_iff rest
      rw [periodLimit]
      split
      · next here =>
        exact .inl (.of_start (ends.mpr here))
      · next elsewhere =>
        have notHere : ¬ EndsAt text start := fun here => elsewhere (ends.mp here)
        have further : text.drop (start + 1) = behind := by
          rw [← List.drop_drop, rest]
          rfl
        have shorter : start < text.length := by
          by_contra outside
          simp [List.drop_eq_nil_of_le (Nat.le_of_not_lt outside)] at rest
        have moved : start + (periodLimit behind + 1) = start + 1 + periodLimit behind := by omega
        rw [moved]
        rcases inductionHypothesis shorter further with found | ⟨atEnd, none⟩
        · exact .inl (found.of_succ notHere)
        · exact .inr ⟨atEnd, not_from_of_succ notHere none⟩

/-! ## The block that is found -/

/-- The first of a list of openings whose block can be closed, with its least closing. -/
structure IsFirstBlock (text : Text) (openings : List Nat) (opening closing : Nat) : Prop where
  first : ∃ passed others, openings = passed ++ opening :: others ∧
    ∀ earlier ∈ passed, ∀ closing, ¬ Closes text earlier closing
  closed : IsLeastClosing text opening closing

/-- The documentation that a list of openings gives: none when no block of them can be closed, and
otherwise the inside of the first block, without the blanks around it. -/
def Documents (text : Text) (openings : List Nat) : Option Text → Prop
  | none => ∀ opening ∈ openings, ∀ closing, ¬ Closes text opening closing
  | some doc => ∃ opening closing, IsFirstBlock text openings opening closing ∧
      IsTrimmed (text.slice (opening + 3) closing) doc

theorem findSome?_body?_iff {text : Text} {openings : List Nat} {answer : Option Text} :
    (openings.findSome? fun opening => body? (text.drop (opening + 3))) = answer ↔
      Documents text openings answer := by
  cases answer with
  | none => simp only [List.findSome?_eq_none_iff, body?_eq_none_iff, Documents]
  | some doc =>
      simp only [List.findSome?_eq_some_iff, body?_eq_none_iff, body?_eq_some_iff, Documents]
      constructor
      · rintro ⟨passed, opening, others, split, ⟨closing, closed, trimmed⟩, never⟩
        exact ⟨opening, closing, ⟨⟨passed, others, split, never⟩, closed⟩, trimmed⟩
      · rintro ⟨opening, closing, ⟨⟨passed, others, split, never⟩, closed⟩, trimmed⟩
        exact ⟨passed, opening, others, split, ⟨closing, closed, trimmed⟩, never⟩

private theorem find?_eq (text : Text) (start : Nat) :
    find? text start =
      ((delimitersFrom start (text.drop start)).filter fun place =>
        place + 3 ≤ start + periodLimit (text.drop start)).findSome? fun opening =>
          body? (text.drop (opening + 3)) := by
  have shifted : ∀ opening,
      (text.drop start).drop (opening + 3) = text.drop (start + opening + 3) := by
    intro opening
    rw [List.drop_drop, Nat.add_assoc]
  rw [← delimitersFrom_take, ← Nat.add_zero start, delimitersFrom_add, List.findSome?_map]
  simp only [find?, shifted, Nat.add_zero]
  rfl

theorem exists_isLimit (text : Text) (start : Nat) : ∃ limit, IsLimit text start limit := by
  by_cases inside : start ≤ text.length
  · exact ⟨_, isLimit_of_drop_eq inside rfl⟩
  · exact ⟨text.length, .inr ⟨rfl, not_endsAt_of_length_le (by omega)⟩⟩

/-- The block that is found is the first one of the openings before the end of the definition. -/
theorem documents_find? {text : Text} {start limit : Nat} {openings : List Nat}
    (ends : IsLimit text start limit) (enumerates : Enumerates text start openings) :
    Documents text (openings.filter fun opening => opening + 3 ≤ limit) (find? text start) := by
  obtain rfl := enumerates.unique (Enumerates.of_drop_eq rfl)
  by_cases inside : start ≤ text.length
  · obtain rfl := ends.unique (isLimit_of_drop_eq inside rfl)
    exact findSome?_body?_iff.mp (find?_eq text start).symm
  · -- Past the end of the text there is nothing to open a block, wherever the limit lies.
    have nothing : text.drop start = [] := List.drop_eq_nil_of_le (by omega)
    apply findSome?_body?_iff.mp
    rw [find?_eq, nothing]
    rfl

/-- A search from an offset that no text can have is refused. From every other offset it answers
with the documentation of the first block that opens before the end of the definition and can be
closed, up to its least closing. -/
theorem findFrom_determined (text : Text) (start : Nat) :
    (∀ error, findFrom text start = .error error ↔
      error = .offsetTooLarge ∧ addressLimit < start) ∧
    ∀ answer, findFrom text start = .ok answer ↔
      start ≤ addressLimit ∧ ∃ limit openings, IsLimit text start limit ∧
        Enumerates text start openings ∧
        Documents text (openings.filter fun opening => opening + 3 ≤ limit) answer := by
  by_cases possible : start ≤ addressLimit
  · have found : findFrom text start = .ok (find? text start) := if_pos possible
    simp only [found, possible, reduceCtorEq, false_iff, not_and, Nat.not_lt, implies_true,
      true_and, Except.ok.injEq]
    intro answer
    constructor
    · rintro rfl
      obtain ⟨limit, ends⟩ := exists_isLimit text start
      have enumerates : Enumerates text start (delimitersFrom start (text.drop start)) :=
        Enumerates.of_drop_eq rfl
      exact ⟨limit, _, ends, enumerates, documents_find? ends enumerates⟩
    · rintro ⟨limit, openings, ends, enumerates, documents⟩
      rw [← findSome?_body?_iff.mpr (documents_find? ends enumerates)]
      exact findSome?_body?_iff.mpr documents
  · have refused : findFrom text start = .error .offsetTooLarge := if_neg possible
    have past : addressLimit < start := Nat.lt_of_not_le possible
    simp [refused, possible, past, eq_comm]

/-- Nothing opens a block behind the last offset that a text can have, but a search from there does
not answer so. -/
theorem findFrom_refuses_hugeOffset :
    (∃ limit openings, IsLimit "A := \"\"\" x \"\"\" .".toList 9223372036854775808 limit ∧
      Enumerates "A := \"\"\" x \"\"\" .".toList 9223372036854775808 openings ∧
      Documents "A := \"\"\" x \"\"\" .".toList
        (openings.filter fun opening => opening + 3 ≤ limit) none) ∧
    findFrom "A := \"\"\" x \"\"\" .".toList 9223372036854775808 = .error .offsetTooLarge := by
  have past : "A := \"\"\" x \"\"\" .".toList.length ≤ 9223372036854775808 := by decide
  refine ⟨⟨_, [], .inr ⟨rfl, not_endsAt_of_length_le past⟩, ?_, ?_⟩, rfl⟩
  · exact Enumerates.of_drop_eq (List.drop_eq_nil_of_le past)
  · simp [Documents]

end GrammarLens.DocBlock
