import GrammarLens.Proofs.BracketFrames
import GrammarLens.Proofs.CommaContinuation

/-!
Contract: the bracket that completion stands in is the innermost one that extraction still reads.

Owns:
- the brackets that are open at the end of a list of tokens, by the depth that extraction counts
  behind each of them;
- extraction reads on behind the tokens exactly if the bracket is open at their end;
- the innermost open bracket, whose owner is on top of the stack that completion keeps;
- closing brackets that close nothing have no part in the choice.

Does not own: what is offered in a bracket.

## Why the stack and the counter agree

A bracket that is read on its own counts the brackets opened and not yet closed inside it. In the
stack these are the entries above its own. Both numbers change alike at every token, and an entry
leaves the stack at the token at which its own count ends.
-/

namespace GrammarLens

/-! ## Open brackets -/

/-- A bracket is open at the end of a list of tokens: the depth, which is one right behind it, does
not become zero. -/
def StaysOpen (tokens : List Token) (opening : Nat) : Prop :=
  tokens[opening]?.map Token.kind = some .leftBracket ∧
    ∀ initial, initial <+: tokens.drop (opening + 1) → 0 < 1 + bracketBalance initial

private theorem nestedAfter_ne_none_iff {tokens : List Token} :
    nestedAfter 0 tokens ≠ none ↔
      ∀ initial, initial <+: tokens → 0 < 1 + bracketBalance initial := by
  rw [Option.ne_none_iff_exists']
  simp only [nestedAfter_eq_some_iff]
  constructor
  · intro counted initial within
    obtain ⟨remaining, nonnegative, -⟩ := counted
    have balance := nonnegative initial within
    omega
  · intro positive
    have whole := positive tokens (List.prefix_refl tokens)
    refine ⟨(bracketBalance tokens).toNat, ?_, by omega⟩
    intro initial within
    have balance := positive initial within
    omega

theorem staysOpen_iff {tokens : List Token} {opening : Nat} :
    StaysOpen tokens opening ↔
      tokens[opening]?.map Token.kind = some .leftBracket ∧
        nestedAfter 0 (tokens.drop (opening + 1)) ≠ none := by
  rw [StaysOpen, nestedAfter_ne_none_iff]

/-- Whether a bracket is open does not depend on what stands before it. -/
theorem staysOpen_add_iff {before tokens : List Token} {opening : Nat} :
    StaysOpen (before ++ tokens) (before.length + opening) ↔ StaysOpen tokens opening := by
  rw [StaysOpen, StaysOpen, Nat.add_assoc, List.drop_length_add_append,
    List.getElem?_append_right (Nat.le_add_right _ _), Nat.add_sub_cancel_left]

theorem staysOpen_append_iff {before inner : List Token} {bracket : Token} :
    StaysOpen (before ++ bracket :: inner) before.length ↔
      bracket.kind = .leftBracket ∧ nestedAfter 0 inner ≠ none := by
  have shifted : StaysOpen (before ++ bracket :: inner) (before.length + 0) ↔
      StaysOpen (bracket :: inner) 0 := staysOpen_add_iff
  rw [← Nat.add_zero before.length, shifted, staysOpen_iff]
  simp

/-- The tokens around a bracket that is open in the end. -/
theorem StaysOpen.exists_parts {tokens : List Token} {opening : Nat}
    (isOpen : StaysOpen tokens opening) :
    ∃ before bracket inner nested, tokens = before ++ bracket :: inner ∧
      bracket.kind = .leftBracket ∧ nestedAfter 0 inner = some nested := by
  obtain ⟨kind, counted⟩ := staysOpen_iff.mp isOpen
  obtain ⟨bracket, here, opens⟩ := Option.map_eq_some_iff.mp kind
  obtain ⟨inside, same⟩ := List.getElem?_eq_some_iff.mp here
  obtain ⟨nested, reached⟩ := Option.ne_none_iff_exists'.mp counted
  refine ⟨tokens.take opening, bracket, tokens.drop (opening + 1), nested, ?_, opens, reached⟩
  rw [← same, ← List.drop_eq_getElem_cons inside, List.take_append_drop]

/-- A bracket that is open in the end has been open all the time. -/
theorem StaysOpen.of_append {left right : List Token} {opening : Nat}
    (isOpen : StaysOpen (left ++ right) opening) (inside : opening < left.length) :
    StaysOpen left opening := by
  refine ⟨?_, ?_⟩
  · rw [← List.getElem?_append_left inside]
    exact isOpen.1
  · intro initial within
    apply isOpen.2
    rw [List.drop_append_of_le_length inside]
    exact within.trans (List.prefix_append _ _)

/-! ## Reading on -/

/-- Extraction that reads a bracket comes to the end of the tokens in it: what is put behind them
may still be a head. -/
def ReadsOn (inner : List Token) : Prop :=
  ∃ more, segmentHeads 0 true (inner ++ more) ≠ segmentHeads 0 true inner

/-- Behind the end of a bracket nothing is read. -/
theorem segmentHeads_append_of_closed {nested : Nat} {tokens : List Token}
    (closed : nestedAfter nested tokens = none) (expecting : Bool) (more : List Token) :
    segmentHeads nested expecting (tokens ++ more) = segmentHeads nested expecting tokens := by
  induction tokens generalizing nested expecting with
  | nil => simp [nestedAfter] at closed
  | cons token rest inductionHypothesis =>
      rw [List.cons_append]
      by_cases falls : nested + token.weight < 0
      · rw [segmentHeads_cons_of_neg falls, segmentHeads_cons_of_neg falls]
      · obtain ⟨next, moves⟩ := Int.eq_ofNat_of_zero_le (Int.not_lt.mp falls)
        rw [nestedAfter_cons moves.symm] at closed
        rw [segmentHeads_cons moves.symm, segmentHeads_cons moves.symm,
          inductionHypothesis closed]

/-- As many closing brackets as are open, a comma and a name. -/
def closingName (nested : Nat) : List Token :=
  List.replicate nested ⟨.rightBracket, [']'], 0⟩ ++
    [⟨.comma, [','], 0⟩, ⟨.identifier, ['x'], 0⟩]

private theorem segmentHeads_closingName (nested : Nat) (expecting : Bool) :
    segmentHeads nested expecting (closingName nested) = [['x']] := by
  induction nested with
  | zero => cases expecting <;> rfl
  | succ nested inductionHypothesis =>
      rw [closingName, List.replicate_succ, List.cons_append, segmentHeads]
      exact inductionHypothesis

private theorem readsOn_iff {inner : List Token} : ReadsOn inner ↔ nestedAfter 0 inner ≠ none := by
  constructor
  · intro readsOn closed
    obtain ⟨more, different⟩ := readsOn
    exact different (segmentHeads_append_of_closed closed true more)
  · intro counted
    obtain ⟨nested, reached⟩ := Option.ne_none_iff_exists'.mp counted
    obtain ⟨heads, expecting, whole⟩ := segmentHeads_append true reached
    refine ⟨closingName nested, ?_⟩
    have alone := whole []
    rw [List.append_nil, segmentHeads, List.append_nil] at alone
    rw [whole, alone, segmentHeads_closingName]
    simp

/-! ## The innermost bracket -/

/-- The choice among the brackets that are open in the end: the last of them, if there is one. -/
def Chooses (tokens : List Token) : Option Nat → Prop
  | none => ∀ opening, ¬ StaysOpen tokens opening
  | some opening => StaysOpen tokens opening ∧ ∀ other, StaysOpen tokens other → other ≤ opening

/-- No bracket behind one at whose level the tokens end is open. -/
theorem le_of_staysOpen {before inner : List Token} {bracket : Token}
    (level : nestedAfter 0 inner = some 0) {other : Nat}
    (isOpen : StaysOpen (before ++ bracket :: inner) other) : other ≤ before.length := by
  by_contra behind
  obtain ⟨count, rfl⟩ := Nat.exists_eq_add_of_lt (Nat.lt_of_not_le behind)
  rw [Nat.add_assoc, staysOpen_add_iff] at isOpen
  have inside : StaysOpen ([bracket] ++ inner) (1 + count) := by rwa [Nat.add_comm 1 count]
  obtain ⟨passed, second, rest, nested, rfl, opens, reached⟩ :=
    (staysOpen_add_iff.mp inside).exists_parts
  -- Counted from the first bracket, the second one is still open in the end.
  rw [nestedAfter_append] at level
  obtain ⟨outer, -, ends⟩ := Option.bind_eq_some_iff.mp level
  have stillOpen := nestedAfter_add (outer + 1) reached
  rw [Nat.zero_add] at stillOpen
  rw [nestedAfter_opening opens, stillOpen] at ends
  simp at ends

/-! ## Surplus brackets -/

section Surplus

variable {left right : List Token} {surplus : Token}
  (closes : surplus.kind = .rightBracket) (unopened : ∀ opening, ¬ StaysOpen left opening)

include closes unopened

/-- The brackets that are open in the end stand behind one that closes nothing. -/
theorem staysOpen_surplus_iff {opening : Nat} :
    StaysOpen (left ++ surplus :: right) opening ↔
      ∃ place, opening = place + 1 ∧ StaysOpen (left ++ right) place := by
  have behind : ∀ count, StaysOpen (left ++ surplus :: right) (left.length + count + 1) ↔
      StaysOpen (left ++ right) (left.length + count) := by
    intro count
    have dropped : StaysOpen ([surplus] ++ right) (1 + count) ↔ StaysOpen right count :=
      staysOpen_add_iff
    rw [Nat.add_assoc, staysOpen_add_iff, staysOpen_add_iff, ← dropped, Nat.add_comm 1 count]
    rfl
  constructor
  · intro isOpen
    rcases Nat.lt_trichotomy opening left.length with before | rfl | after
    · exact absurd (isOpen.of_append before) (unopened opening)
    · have kind := (staysOpen_append_iff.mp isOpen).1
      rw [closes] at kind
      exact absurd kind (by decide)
    · obtain ⟨count, rfl⟩ := Nat.exists_eq_add_of_lt after
      exact ⟨left.length + count, rfl, (behind count).mp isOpen⟩
  · rintro ⟨place, rfl, isOpen⟩
    by_cases before : place < left.length
    · exact absurd (isOpen.of_append before) (unopened place)
    · obtain ⟨count, rfl⟩ := Nat.exists_eq_add_of_le (Nat.le_of_not_lt before)
      exact (behind count).mpr isOpen

/-- With and without a closing bracket that closes nothing, the same bracket is chosen. -/
theorem chooses_surplus_iff {choice : Option Nat} :
    Chooses (left ++ surplus :: right) (choice.map (· + 1)) ↔ Chooses (left ++ right) choice := by
  have shifted : ∀ place, StaysOpen (left ++ surplus :: right) (place + 1) ↔
      StaysOpen (left ++ right) place := by
    intro place
    rw [staysOpen_surplus_iff closes unopened]
    simp
  cases choice with
  | none =>
      constructor
      · intro closed place isOpen
        exact closed (place + 1) ((shifted place).mpr isOpen)
      · intro closed opening isOpen
        obtain ⟨place, -, there⟩ := (staysOpen_surplus_iff closes unopened).mp isOpen
        exact closed place there
  | some opening =>
      constructor
      · intro chosen
        refine ⟨(shifted opening).mp chosen.1, ?_⟩
        intro other isOpen
        exact Nat.le_of_succ_le_succ (chosen.2 (other + 1) ((shifted other).mpr isOpen))
      · intro chosen
        refine ⟨(shifted opening).mpr chosen.1, ?_⟩
        intro other isOpen
        obtain ⟨place, rfl, there⟩ := (staysOpen_surplus_iff closes unopened).mp isOpen
        exact Nat.succ_le_succ (chosen.2 place there)

end Surplus

/-! ## The top of the stack -/

private theorem bracketOwner_length (before rest : List Token) :
    bracketOwner (before ++ rest) before.length = before.getLast?.map Token.text := by
  rcases List.eq_nil_or_concat before with rfl | ⟨earlier, owner, rfl⟩
  · rfl
  · rw [List.concat_eq_append, List.length_append, List.append_assoc, List.getLast?_concat]
    simp [bracketOwner]

namespace Completion

/-- An entry of the stack stays in its place below the brackets that are opened and not closed. -/
theorem openOwners_getElem? {nested remaining : Nat} {tokens : List Token}
    (counted : nestedAfter nested tokens = some remaining) (previous : Option Token)
    (opened : List (Option Text)) :
    (openOwners previous opened tokens)[remaining]? = opened[nested]? := by
  induction tokens generalizing nested previous opened with
  | nil =>
      obtain rfl : nested = remaining := Option.some.inj counted
      rfl
  | cons token rest inductionHypothesis =>
      rw [nestedAfter] at counted
      rw [openOwners]
      cases kind : token.kind with
      | leftBracket =>
          rw [kind] at counted
          rw [inductionHypothesis counted, List.getElem?_cons_succ]
      | rightBracket =>
          simp only [kind] at counted
          cases nested with
          | zero => simp at counted
          | succ nested =>
              rw [inductionHypothesis counted, List.getElem?_tail]
              rfl
      | identifier | tag | leftAngle | rightAngle | comma | ampersand =>
          simp only [kind] at counted
          exact inductionHypothesis counted _ _

theorem openOwners_ne_nil {tokens : List Token} {opening : Nat}
    (isOpen : StaysOpen tokens opening) : openOwners none [] tokens ≠ [] := by
  obtain ⟨before, bracket, inner, nested, rfl, opens, reached⟩ := isOpen.exists_parts
  intro vacant
  rw [openOwners_append, openOwners, opens] at vacant
  have entry := openOwners_getElem? reached (some bracket)
    ((before.getLast?.or none).map Token.text :: openOwners none [] before)
  rw [vacant] at entry
  simp at entry

/-- The owner on top of the stack is that of the innermost open bracket. -/
theorem exists_chooses (tokens : List Token) :
    ∃ choice, Chooses tokens choice ∧
      enclosingOwner? tokens = choice.bind (bracketOwner tokens) := by
  have encloses := encloses_openOwners tokens
  have complete : ∀ opening, StaysOpen tokens opening → openOwners none [] tokens ≠ [] :=
    fun opening => openOwners_ne_nil
  rw [enclosingOwner?]
  generalize openOwners none [] tokens = owners at encloses complete
  cases encloses with
  | outside => exact ⟨none, fun opening isOpen => complete opening isOpen rfl, rfl⟩
  | @inside before inner bracket owners opens level outer =>
      refine ⟨some before.length, ⟨?_, fun other => le_of_staysOpen level⟩, ?_⟩
      · exact staysOpen_append_iff.mpr ⟨opens, by simp [level]⟩
      · rw [Option.bind_some, bracketOwner_length]
        rfl

/-- Completion stands in the innermost bracket that extraction, counting the depth behind each one,
reads to the end. Closing brackets that close nothing do not change which one that is. -/
theorem enclosing_innermost (settings : Settings) (text : Text) (offset : Int) {context : Context}
    (built : Context.build settings text (text.clampOffset offset) = .ok context) :
    (∀ opening, StaysOpen context.tokens opening ↔
      context.tokens[opening]?.map Token.kind = some .leftBracket ∧
        ReadsOn (context.tokens.drop (opening + 1))) ∧
    (∃ choice, Chooses context.tokens choice ∧
      context.enclosing = choice.bind (bracketOwner context.tokens)) ∧
    ∀ left surplus right, context.tokens = left ++ surplus :: right →
      surplus.kind = .rightBracket → (∀ opening, ¬ StaysOpen left opening) →
        ∀ choice, Chooses context.tokens (choice.map (· + 1)) ↔ Chooses (left ++ right) choice := by
  refine ⟨?_, ?_, ?_⟩
  · intro opening
    rw [staysOpen_iff, readsOn_iff]
  · obtain ⟨before, rfl⟩ := Context.eq_ofBefore_of_build built
    exact exists_chooses (tokenizeCode before)
  · intro left surplus right split closes unopened choice
    rw [split]
    exact chooses_surplus_iff closes unopened

/-- One closing bracket closes nothing, and two brackets are open and closed inside the open one. -/
theorem enclosing_innermost_surplusBracket :
    let text : Text := "B [ ] ] A [ x [ ], C [ y ] ".toList
    let context := Context.ofBefore 27 text
    context.enclosing = some ['A'] ∧
      (∃ choice, Chooses context.tokens choice ∧
        some ['A'] = choice.bind (bracketOwner context.tokens)) ∧
      ∀ choice, Chooses context.tokens (choice.map (· + 1)) ↔
        Chooses (context.tokens.take 3 ++ context.tokens.drop 4) choice := by
  intro text context
  have built : Context.build .standard text (text.clampOffset 27) = .ok context := by decide
  have enclosed : context.enclosing = some ['A'] := by decide
  obtain ⟨counted, chosen, surplus⟩ := enclosing_innermost .standard text 27 built
  rw [enclosed] at chosen
  refine ⟨enclosed, chosen, ?_⟩
  apply surplus (context.tokens.take 3) ⟨.rightBracket, [']'], 6⟩ (context.tokens.drop 4)
  · decide
  · rfl
  · intro opening isOpen
    exact openOwners_ne_nil isOpen (by decide)

end Completion

end GrammarLens
