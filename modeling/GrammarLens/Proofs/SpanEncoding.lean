import GrammarLens.Proofs.Highlighting

/-!
Contract: the relative encoding of spans loses nothing.

Owns:
- the reader of encoded spans, which keeps the line and the column of the span before;
- the stable sort of spans by line and column, and that there is only one;
- reading an encoding gives back that sort, and the spans of a text in their own order;
- the distances in the encoding of a text: no span goes back or reaches into the next.

## Why reading does not depend on the order

A column is written relative to the span before only where the line does not change. The reader
makes the same choice, because it sees the same difference of lines, and so it is in step with the
writer for spans in any order at all. Order matters for the signs of the differences only.
-/

namespace GrammarLens

namespace Span

/-- Whether a span stands at a line and a column. -/
def isAt (line column : Int) (span : Span) : Bool := span.line = line && span.column = column

/-- The order of spans by line and then by column. -/
def AtOrBefore (left right : Span) : Prop :=
  left.line < right.line ∨ left.line = right.line ∧ left.column ≤ right.column

end Span

namespace Highlight

/-! ## Reading an encoding -/

/-- Reads groups of five numbers, the first relative to a line and a column. The legend has no
modifiers, so a group that names some is refused, as is a group that is cut short. -/
def decodeFrom (line column : Int) : List Int → Option (List Span)
  | [] => some []
  | lineDelta :: columnDelta :: length :: tokenType :: modifiers :: rest =>
    let start := if lineDelta = 0 then column + columnDelta else columnDelta
    if modifiers = 0 then
      (decodeFrom (line + lineDelta) start rest).map
        fun others => ⟨line + lineDelta, start, length, tokenType⟩ :: others
    else none
  | _ => none

def decode (data : List Int) : Option (List Span) := decodeFrom 0 0 data

private theorem decodeFrom_encodeFrom (line column : Int) (spans : List Span) :
    decodeFrom line column (encodeFrom line column spans) = some spans := by
  induction spans generalizing line column with
  | nil => rfl
  | cons span others inductionHypothesis =>
      have sameLine : line + (span.line - line) = span.line := by omega
      have sameColumn :
          (if span.line - line = 0 then
            column + (if span.line - line = 0 then span.column - column else span.column)
          else if span.line - line = 0 then span.column - column else span.column) =
            span.column := by
        split <;> omega
      simp only [encodeFrom, decodeFrom, if_true, sameLine, sameColumn, inductionHypothesis,
        Option.map_some]

/-! ## Stable sorts -/

/-- Lists that hold the same spans at every place, in the same order. -/
def AgreeAtPlaces (left right : List Span) : Prop :=
  ∀ line column, left.filter (Span.isAt line column) = right.filter (Span.isAt line column)

/-- The spans by line and then by column, those at one place in the order that they had. -/
structure IsStableSort (spans sorted : List Span) : Prop where
  ordered : sorted.Pairwise Span.AtOrBefore
  stable : AgreeAtPlaces sorted spans

namespace AgreeAtPlaces

variable {left right : List Span} {span : Span}

theorem mem (agree : AgreeAtPlaces left right) (member : span ∈ left) : span ∈ right := by
  have here : span ∈ left.filter (Span.isAt span.line span.column) := by
    simp [Span.isAt, member]
  rw [agree] at here
  exact (List.mem_filter.mp here).1

private theorem symm (agree : AgreeAtPlaces left right) : AgreeAtPlaces right left :=
  fun line column => (agree line column).symm

theorem tail (agree : AgreeAtPlaces (span :: left) (span :: right)) : AgreeAtPlaces left right := by
  intro line column
  have whole := agree line column
  rw [List.filter_cons, List.filter_cons] at whole
  split at whole
  · exact (List.cons.inj whole).2
  · exact whole

/-- First spans at one place are the same. -/
theorem head_eq {other : Span} (agree : AgreeAtPlaces (span :: left) (other :: right))
    (sameLine : span.line = other.line) (sameColumn : span.column = other.column) :
    span = other := by
  have whole := agree span.line span.column
  rw [List.filter_cons_of_pos (by simp [Span.isAt]),
    List.filter_cons_of_pos (by simp [Span.isAt, sameLine, sameColumn])] at whole
  exact (List.cons.inj whole).1

end AgreeAtPlaces

theorem spanLe_iff {left right : Span} : spanLe left right ↔ left.AtOrBefore right := by
  simp [spanLe, Span.AtOrBefore]

private theorem spanLe_trans (first second third : Span) (lower : spanLe first second)
    (upper : spanLe second third) : spanLe first third := by
  simp only [spanLe_iff, Span.AtOrBefore] at *
  omega

private theorem spanLe_total (left right : Span) : spanLe left right || spanLe right left := by
  rw [Bool.or_eq_true, spanLe_iff, spanLe_iff, Span.AtOrBefore, Span.AtOrBefore]
  omega

private theorem isStableSort_mergeSort (spans : List Span) :
    IsStableSort spans (spans.mergeSort spanLe) where
  ordered := (List.pairwise_mergeSort spanLe_trans spanLe_total spans).imp spanLe_iff.mp
  stable := by
    intro line column
    have level : (spans.filter (Span.isAt line column)).Pairwise fun left right =>
        spanLe left right := by
      apply List.pairwise_of_forall_mem_list
      intro left leftMember right rightMember
      have leftAt := (List.mem_filter.mp leftMember).2
      have rightAt := (List.mem_filter.mp rightMember).2
      simp only [Span.isAt, Bool.and_eq_true, decide_eq_true_eq] at leftAt rightAt
      rw [spanLe_iff, Span.AtOrBefore]
      omega
    have kept := (List.sublist_mergeSort spanLe_trans spanLe_total level
      List.filter_sublist).filter (Span.isAt line column)
    rw [List.filter_filter] at kept
    simp only [Bool.and_self] at kept
    apply (kept.eq_of_length _).symm
    exact ((List.mergeSort_perm spans spanLe).filter _).length_eq.symm

private theorem eq_of_agreeAtPlaces {left right : List Span} (agree : AgreeAtPlaces left right)
    (leftOrdered : left.Pairwise Span.AtOrBefore) (rightOrdered : right.Pairwise Span.AtOrBefore) :
    left = right := by
  induction left generalizing right with
  | nil =>
      rw [eq_comm, List.eq_nil_iff_forall_not_mem]
      intro span member
      simpa using agree.symm.mem member
  | cons span rest inductionHypothesis =>
      cases right with
      | nil => simpa using agree.mem List.mem_cons_self
      | cons other later =>
          rw [List.pairwise_cons] at leftOrdered rightOrdered
          -- Either first span comes before all spans of both lists.
          have lower : span.AtOrBefore other := by
            rcases List.mem_cons.mp (agree.symm.mem List.mem_cons_self) with same | inRest
            · exact same ▸ .inr ⟨rfl, Int.le_refl _⟩
            · exact leftOrdered.1 other inRest
          have upper : other.AtOrBefore span := by
            rcases List.mem_cons.mp (agree.mem List.mem_cons_self) with same | inLater
            · exact same ▸ .inr ⟨rfl, Int.le_refl _⟩
            · exact rightOrdered.1 span inLater
          unfold Span.AtOrBefore at lower upper
          obtain rfl := agree.head_eq (by omega) (by omega)
          rw [inductionHypothesis agree.tail leftOrdered.2 rightOrdered.2]

private theorem isStableSort_iff {spans sorted : List Span} :
    IsStableSort spans sorted ↔ sorted = spans.mergeSort spanLe := by
  constructor
  · intro sort
    have computed := isStableSort_mergeSort spans
    apply eq_of_agreeAtPlaces _ sort.ordered computed.ordered
    intro line column
    rw [sort.stable, computed.stable]
  · rintro rfl
    exact isStableSort_mergeSort spans

/-! ## Distances -/

/-- Encoded spans of which none goes back to an earlier line, reaches into the next one on its line
or is empty. `previous` is the length of the span before. -/
def WellSpaced (previous : Option Int) : List Int → Prop
  | [] => True
  | lineDelta :: columnDelta :: length :: _ :: _ :: rest =>
    0 ≤ lineDelta ∧
      (lineDelta = 0 → ∀ behind, previous = some behind → 0 < columnDelta ∧ behind ≤ columnDelta) ∧
      0 < length ∧ WellSpaced (some length) rest
  | _ => False

private theorem wellSpaced_encodeFrom {previous : Span} {spans : List Span}
    (ordered : (previous :: spans).Pairwise Precedes) (occupied : ∀ span ∈ spans, 0 < span.length) :
    WellSpaced (some previous.length) (encodeFrom previous.line previous.column spans) := by
  induction spans generalizing previous with
  | nil => trivial
  | cons span others inductionHypothesis =>
      obtain ⟨before, laterOrdered⟩ := List.pairwise_cons.mp ordered
      have precedes : Precedes previous span := before span List.mem_cons_self
      unfold Precedes at precedes
      refine ⟨by omega, ?_, occupied span List.mem_cons_self, ?_⟩
      · intro sameLine behind known
        obtain rfl := Option.some.inj known
        rw [if_pos sameLine]
        omega
      · exact inductionHypothesis laterOrdered
          fun other member => occupied other (List.mem_cons_of_mem _ member)

/-- The first span is at a distance from the start of the text. -/
theorem wellSpaced_encode {spans : List Span} (ordered : spans.Pairwise Precedes)
    (occupied : ∀ span ∈ spans, 0 < span.length) (below : ∀ span ∈ spans, 0 ≤ span.line) :
    WellSpaced none (encodeFrom 0 0 spans) := by
  cases spans with
  | nil => trivial
  | cons span others =>
      refine ⟨?_, by simp, occupied span List.mem_cons_self, ?_⟩
      · have start := below span List.mem_cons_self
        omega
      · exact wellSpaced_encodeFrom ordered
          fun other member => occupied other (List.mem_cons_of_mem _ member)

private theorem mergeSort_classify (names : List Text) (text : Text) :
    (classify names text).mergeSort spanLe = classify names text := by
  apply List.mergeSort_of_pairwise
  rw [classify_eq_spans]
  apply (Scanner.pairwise_spans names.contains Scanner.start text).imp
  intro left right precedes
  rw [spanLe_iff, Span.AtOrBefore]
  unfold Precedes at precedes
  omega

/-- Reading an encoding of any spans gives back their stable sort by line and column. Reading the
highlighting of a text gives back its spans in their own order, and the highlighting never goes
back: lines do not fall, columns on one line rise at least by the length of the span before, and no
span is empty. -/
theorem decode_encode (spans sorted : List Span) (names : List Text) (text : Text) :
    (decode (encode spans) = some sorted ↔ IsStableSort spans sorted) ∧
      decode (tokens names text) = some (classify names text) ∧
      WellSpaced none (tokens names text) := by
  refine ⟨?_, ?_, ?_⟩
  · rw [isStableSort_iff, decode, encode, decodeFrom_encodeFrom, Option.some.injEq, eq_comm]
  · rw [decode, tokens, encode, decodeFrom_encodeFrom, mergeSort_classify]
  · rw [tokens, encode, mergeSort_classify]
    apply wellSpaced_encode
    · rw [classify_eq_spans]
      exact Scanner.pairwise_spans names.contains Scanner.start text
    · intro span member
      obtain ⟨_, run, _, _, name, _, _, _, _, _, rfl⟩ := mem_classify_iff.mp member
      have positive := List.length_pos_iff.mpr name.1
      show 0 < (run.length : Int)
      omega
    · intro span member
      obtain ⟨_, _, _, _, _, _, _, _, _, _, rfl⟩ := mem_classify_iff.mp member
      exact Int.natCast_nonneg _

end Highlight

end GrammarLens
