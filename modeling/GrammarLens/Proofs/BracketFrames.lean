import GrammarLens.Proofs.AttributeUnion
import GrammarLens.Proofs.BracketNesting

/-!
Contract: which tokens are attributes of which objects, by their places in a list of tokens.

Owns:
- the balance of square brackets, and the number of open brackets as a condition on it;
- what one token does to a bracket that is being read: to its count and to its open segment;
- the level of a bracket, which are the places where it is the innermost open one, and the names
  that head a segment there;
- one pass over the tokens with a frame for every open bracket, which finds what reading each
  bracket on its own finds.

## Why one pass finds the same

A bracket that is read on its own is, at every token, in a state of its own: how many brackets have
been opened inside it, and whether its segment has a head. In one pass the first number is the
frame's place in the stack and the second is kept in the frame. A token changes both in the same
way, so what the frames still have to find is always what their brackets still have to find.
-/

namespace GrammarLens

/-! ## Balance -/

/-- What a token adds to the number of open brackets. -/
def Token.weight (token : Token) : Int :=
  match token.kind with
  | .leftBracket => 1
  | .rightBracket => -1
  | .identifier | .tag | .leftAngle | .rightAngle | .comma | .ampersand => 0

/-- The opening brackets of a list less its closing ones. -/
def bracketBalance : List Token → Int
  | [] => 0
  | token :: rest => token.weight + bracketBalance rest

section Step

variable {nested next : Nat} {token : Token}

theorem nestedAfter_cons (moves : (next : Int) = nested + token.weight) (rest : List Token) :
    nestedAfter nested (token :: rest) = nestedAfter next rest := by
  rw [nestedAfter]
  cases kind : token.kind with
  | leftBracket =>
      simp only [Token.weight, kind] at moves
      rw [show next = nested + 1 by omega]
  | rightBracket =>
      simp only [Token.weight, kind] at moves
      show (if nested = 0 then none else nestedAfter (nested - 1) rest) = _
      rw [if_neg (by omega), show nested - 1 = next by omega]
  | identifier | tag | leftAngle | rightAngle | comma | ampersand =>
      simp only [Token.weight, kind] at moves
      rw [show next = nested by omega]

theorem nestedAfter_cons_of_neg (falls : nested + token.weight < 0) (rest : List Token) :
    nestedAfter nested (token :: rest) = none := by
  rw [nestedAfter]
  cases kind : token.kind with
  | rightBracket =>
      simp only [Token.weight, kind] at falls
      exact if_pos (by omega)
  | leftBracket | identifier | tag | leftAngle | rightAngle | comma | ampersand =>
      simp only [Token.weight, kind] at falls
      omega

end Step

private theorem forall_isPrefix_cons {token : Token} {rest : List Token}
    {holds : List Token → Prop} :
    (∀ initial, initial <+: token :: rest → holds initial) ↔
      holds [] ∧ ∀ initial, initial <+: rest → holds (token :: initial) := by
  constructor
  · intro all
    exact ⟨all [] List.nil_prefix, fun initial within =>
      all _ (List.cons_prefix_cons.mpr ⟨rfl, within⟩)⟩
  · intro parts initial within
    cases initial with
    | nil => exact parts.1
    | cons first others =>
        obtain ⟨rfl, behind⟩ := List.cons_prefix_cons.mp within
        exact parts.2 others behind

/-- The count of open brackets succeeds where no initial part closes more than is open. -/
theorem nestedAfter_eq_some_iff {nested remaining : Nat} {tokens : List Token} :
    nestedAfter nested tokens = some remaining ↔
      (∀ initial, initial <+: tokens → 0 ≤ nested + bracketBalance initial) ∧
        nested + bracketBalance tokens = remaining := by
  induction tokens generalizing nested with
  | nil =>
      simp only [nestedAfter, List.prefix_nil, forall_eq, bracketBalance, Option.some.injEq]
      omega
  | cons token rest inductionHypothesis =>
      rw [forall_isPrefix_cons]
      by_cases falls : nested + token.weight < 0
      · rw [nestedAfter_cons_of_neg falls]
        simp only [reduceCtorEq, false_iff]
        intro counted
        have first := counted.1.2 [] List.nil_prefix
        simp only [bracketBalance] at first
        omega
      · obtain ⟨next, moves⟩ := Int.eq_ofNat_of_zero_le (Int.not_lt.mp falls)
        have shifted : ∀ others, (nested : Int) + bracketBalance (token :: others) =
            next + bracketBalance others := by
          intro others
          rw [bracketBalance]
          omega
        have start : 0 ≤ (nested : Int) + bracketBalance [] := by
          rw [bracketBalance]
          omega
        rw [nestedAfter_cons moves.symm, inductionHypothesis, shifted, and_iff_right start]
        simp only [shifted]

/-! ## Reading one bracket -/

/-- Whether the segment of a bracket lacks its head after a token, `nested` brackets deep inside
it. -/
def Token.expects (nested : Nat) (expecting : Bool) (token : Token) : Bool :=
  match token.kind with
  | .comma => expecting || nested = 0
  | .identifier | .tag => expecting && nested ≠ 0
  | .leftBracket | .rightBracket | .leftAngle | .rightAngle | .ampersand => expecting

/-- The base name of a token that heads a segment. -/
def Token.headNames (nested : Nat) (expecting : Bool) (token : Token) : List Text :=
  if token.isName && nested = 0 && expecting then [baseName token.text] else []

theorem Token.weight_of_isName {token : Token} (named : token.isName) : token.weight = 0 := by
  simp only [isName, Bool.or_eq_true, decide_eq_true_eq] at named
  rcases named with kind | kind
  · rw [weight, kind]
  · rw [weight, kind]

theorem Token.expects_iff {token : Token} {nested : Nat} {expecting : Bool} :
    token.expects nested expecting ↔
      nested = 0 ∧ token.kind = .comma ∨ expecting ∧ ¬ (nested = 0 ∧ token.isName) := by
  cases kind : token.kind <;> simp [expects, isName, kind, or_comm]

theorem Token.expects_succ (token : Token) (nested : Nat) (expecting : Bool) :
    token.expects (nested + 1) expecting = expecting := by
  cases kind : token.kind <;> simp [expects, kind]

section Step

variable {nested next : Nat} {token : Token}

theorem segmentHeads_cons (moves : (next : Int) = nested + token.weight) (expecting : Bool)
    (rest : List Token) :
    segmentHeads nested expecting (token :: rest) =
      token.headNames nested expecting ++
        segmentHeads next (token.expects nested expecting) rest := by
  rw [segmentHeads]
  cases kind : token.kind with
  | leftBracket =>
      simp only [Token.weight, kind] at moves
      simp [Token.headNames, Token.expects, Token.isName, kind, show next = nested + 1 by omega]
  | rightBracket =>
      simp only [Token.weight, kind] at moves
      simp [Token.headNames, Token.expects, Token.isName, kind, show nested ≠ 0 by omega,
        show next = nested - 1 by omega]
  | comma | leftAngle | rightAngle | ampersand =>
      simp only [Token.weight, kind] at moves
      simp [Token.headNames, Token.expects, Token.isName, kind, show next = nested by omega]
  | identifier | tag =>
      simp only [Token.weight, kind] at moves
      by_cases level : nested = 0
      · cases expecting <;>
          simp [Token.headNames, Token.expects, Token.isName, kind, show next = nested by omega,
            level]
      · simp [Token.headNames, Token.expects, Token.isName, kind, show next = nested by omega,
          level]

theorem segmentHeads_cons_of_neg (falls : nested + token.weight < 0) (expecting : Bool)
    (rest : List Token) : segmentHeads nested expecting (token :: rest) = [] := by
  rw [segmentHeads]
  cases kind : token.kind with
  | rightBracket =>
      simp only [Token.weight, kind] at falls
      exact if_pos (by omega)
  | leftBracket | identifier | tag | leftAngle | rightAngle | comma | ampersand =>
      simp only [Token.weight, kind] at falls
      omega

end Step

/-- Whether the segment of a bracket lacks its head after tokens. -/
def expectingAfter : (nested : Nat) → (expecting : Bool) → List Token → Bool
  | _, expecting, [] => expecting
  | nested, expecting, token :: rest =>
    expectingAfter (nested + token.weight).toNat (token.expects nested expecting) rest

theorem expectingAfter_cons {nested next : Nat} {token : Token}
    (moves : (next : Int) = nested + token.weight) (expecting : Bool) (rest : List Token) :
    expectingAfter nested expecting (token :: rest) =
      expectingAfter next (token.expects nested expecting) rest := by
  rw [expectingAfter, ← moves, Int.toNat_natCast]

private theorem expectingAfter_concat {nested remaining : Nat} {tokens : List Token}
    (counted : nestedAfter nested tokens = some remaining) (expecting : Bool) (token : Token) :
    expectingAfter nested expecting (tokens ++ [token]) =
      token.expects remaining (expectingAfter nested expecting tokens) := by
  induction tokens generalizing nested expecting with
  | nil =>
      obtain rfl : nested = remaining := Option.some.inj counted
      rfl
  | cons first rest inductionHypothesis =>
      by_cases falls : nested + first.weight < 0
      · rw [nestedAfter_cons_of_neg falls] at counted
        simp at counted
      · obtain ⟨next, moves⟩ := Int.eq_ofNat_of_zero_le (Int.not_lt.mp falls)
        rw [nestedAfter_cons moves.symm] at counted
        rw [List.cons_append, expectingAfter_cons moves.symm, expectingAfter_cons moves.symm]
        exact inductionHypothesis counted _

/-- A head is the base name of a name that is met at the level of the bracket, while its segment
lacks a head. -/
theorem mem_segmentHeads_iff {nested : Nat} {expecting : Bool} {tokens : List Token} {head : Text} :
    head ∈ segmentHeads nested expecting tokens ↔
      ∃ passed name rest, tokens = passed ++ name :: rest ∧ nestedAfter nested passed = some 0 ∧
        expectingAfter nested expecting passed ∧ name.isName ∧ baseName name.text = head := by
  induction tokens generalizing nested expecting with
  | nil => simp [segmentHeads]
  | cons token others inductionHypothesis =>
      by_cases falls : nested + token.weight < 0
      · rw [segmentHeads_cons_of_neg falls]
        simp only [List.not_mem_nil, false_iff]
        rintro ⟨passed, name, rest, split, counted, -, named, -⟩
        cases passed with
        | nil =>
            obtain ⟨rfl, -⟩ := List.cons.inj split
            have flat := Token.weight_of_isName named
            omega
        | cons first passed =>
            obtain ⟨rfl, -⟩ := List.cons.inj split
            rw [nestedAfter_cons_of_neg falls] at counted
            simp at counted
      · obtain ⟨next, moves⟩ := Int.eq_ofNat_of_zero_le (Int.not_lt.mp falls)
        rw [segmentHeads_cons moves.symm, List.mem_append, inductionHypothesis]
        constructor
        · rintro (here | ⟨passed, name, rest, rfl, counted, lacking, found⟩)
          · unfold Token.headNames at here
            split at here
            · next heads =>
              simp only [Bool.and_eq_true, decide_eq_true_eq] at heads
              obtain ⟨⟨named, rfl⟩, lacking⟩ := heads
              exact ⟨[], token, others, rfl, rfl, lacking, named, (List.mem_singleton.mp here).symm⟩
            · simp at here
          · refine ⟨token :: passed, name, rest, rfl, ?_, ?_, found⟩
            · rwa [nestedAfter_cons moves.symm]
            · rwa [expectingAfter_cons moves.symm]
        · rintro ⟨passed, name, rest, split, counted, lacking, named, rfl⟩
          cases passed with
          | nil =>
              left
              obtain ⟨rfl, -⟩ := List.cons.inj split
              obtain rfl : nested = 0 := Option.some.inj counted
              have lacks : expecting = true := lacking
              simp [Token.headNames, named, lacks]
          | cons first passed =>
              right
              obtain ⟨rfl, behind⟩ := List.cons.inj split
              rw [nestedAfter_cons moves.symm] at counted
              rw [expectingAfter_cons moves.symm] at lacking
              exact ⟨passed, name, rest, behind, counted, lacking, named, rfl⟩

/-! ## Places -/

/-- The tokens strictly between two places. -/
def tokensBetween (tokens : List Token) (opening index : Nat) : List Token :=
  (tokens.take index).drop (opening + 1)

/-- The bracket at `opening` is the innermost open one at `index`: between the two all that is
opened is closed, and nothing else is closed. -/
structure AtLevel (tokens : List Token) (opening index : Nat) : Prop where
  behind : opening < index
  unclosed : ∀ initial, initial <+: tokensBetween tokens opening index → 0 ≤ bracketBalance initial
  closed : bracketBalance (tokensBetween tokens opening index) = 0

/-- At `place` stands a comma between segments of the bracket at `opening`. -/
def Separates (tokens : List Token) (opening place : Nat) : Prop :=
  AtLevel tokens opening place ∧ tokens[place]?.map Token.kind = some .comma

/-- The segment of the bracket at `opening` that reaches to `index` begins behind `start`: behind
the last comma before `index`, or behind the bracket when there is none. -/
structure SegmentBegins (tokens : List Token) (opening index start : Nat) : Prop where
  edge : start = opening ∨ start < index ∧ Separates tokens opening start
  last : ∀ place, start < place → place < index → ¬ Separates tokens opening place

/-- No name has been met in the segment that reaches to `index`. -/
def IsHeadless (tokens : List Token) (opening index : Nat) : Prop :=
  ∃ start, SegmentBegins tokens opening index start ∧
    ∀ place, start < place → place < index → AtLevel tokens opening place →
      ¬ tokens[place]?.any Token.isName

/-- The token at `index` heads a segment of the bracket at `opening`. -/
structure HeadsSegment (tokens : List Token) (opening index : Nat) : Prop where
  opens : tokens[opening]?.map Token.kind = some .leftBracket
  level : AtLevel tokens opening index
  named : tokens[index]?.any Token.isName
  headless : IsHeadless tokens opening index

section Places

variable {tokens : List Token} {opening index : Nat}

theorem atLevel_iff :
    AtLevel tokens opening index ↔
      opening < index ∧ nestedAfter 0 (tokensBetween tokens opening index) = some 0 := by
  rw [nestedAfter_eq_some_iff]
  simp only [Int.zero_add, Int.cast_ofNat_Int]
  constructor
  · intro level
    exact ⟨level.behind, level.unclosed, level.closed⟩
  · intro conditions
    exact ⟨conditions.1, conditions.2.1, conditions.2.2⟩

private theorem tokensBetween_succ {token : Token} (behind : opening < index)
    (here : tokens[index]? = some token) :
    tokensBetween tokens opening (index + 1) = tokensBetween tokens opening index ++ [token] := by
  have inside : index < tokens.length := (List.getElem?_eq_some_iff.mp here).1
  have longEnough : opening + 1 ≤ (tokens.take index).length := by
    rw [List.length_take]
    omega
  rw [tokensBetween, tokensBetween, List.take_add_one, here, Option.toList_some,
    List.drop_append_of_le_length longEnough]

/-- A segment is without a head behind a comma, and as long as no name is met. -/
theorem isHeadless_succ (behind : opening < index) :
    IsHeadless tokens opening (index + 1) ↔
      Separates tokens opening index ∨
        IsHeadless tokens opening index ∧
          ¬ (AtLevel tokens opening index ∧ tokens[index]?.any Token.isName) := by
  constructor
  · rintro ⟨start, begins, nameless⟩
    rcases Nat.lt_trichotomy start index with earlier | same | later
    · right
      refine ⟨⟨start, ⟨?_, ?_⟩, ?_⟩, ?_⟩
      · exact begins.edge.imp id fun separated => ⟨earlier, separated.2⟩
      · intro place afterStart beforeIndex
        exact begins.last place afterStart (by omega)
      · intro place afterStart beforeIndex
        exact nameless place afterStart (by omega)
      · intro met
        exact nameless index earlier (by omega) met.1 met.2
    · left
      rcases begins.edge with atBracket | separated
      · omega
      · rw [← same]
        exact separated.2
    · rcases begins.edge with atBracket | separated
      · omega
      · omega
  · intro reason
    by_cases separates : Separates tokens opening index
    · refine ⟨index, ⟨.inr ⟨by omega, separates⟩, ?_⟩, ?_⟩
      · intro place afterStart beforeIndex
        omega
      · intro place afterStart beforeIndex
        omega
    · obtain ⟨⟨start, begins, nameless⟩, unnamed⟩ := reason.resolve_left separates
      refine ⟨start, ⟨begins.edge.imp id fun separated => ⟨by omega, separated.2⟩, ?_⟩, ?_⟩
      · intro place afterStart beforeIndex
        rcases Nat.lt_succ_iff_lt_or_eq.mp beforeIndex with earlier | rfl
        · exact begins.last place afterStart earlier
        · exact separates
      · intro place afterStart beforeIndex level named
        rcases Nat.lt_succ_iff_lt_or_eq.mp beforeIndex with earlier | rfl
        · exact nameless place afterStart earlier level named
        · exact unnamed ⟨level, named⟩

/-- The flag of the count says whether the segment is without a head. -/
theorem expectingAfter_iff_isHeadless (behind : opening < index) (inside : index ≤ tokens.length)
    {nested : Nat} (counted : nestedAfter 0 (tokensBetween tokens opening index) = some nested) :
    expectingAfter 0 true (tokensBetween tokens opening index) ↔
      IsHeadless tokens opening index := by
  induction index, behind using Nat.le_induction generalizing nested with
  | base =>
      have vacant : tokensBetween tokens opening opening.succ = [] := by
        rw [tokensBetween, List.drop_eq_nil_iff, List.length_take]
        omega
      rw [vacant]
      refine iff_of_true rfl ⟨opening, ⟨.inl rfl, ?_⟩, ?_⟩
      · intro place afterStart beforeIndex
        omega
      · intro place afterStart beforeIndex
        omega
  | succ index behind inductionHypothesis =>
      have here : tokens[index]? = some tokens[index] := List.getElem?_eq_getElem inside
      generalize tokens[index] = token at here
      rw [tokensBetween_succ behind here, nestedAfter_append] at counted
      obtain ⟨between, reached, -⟩ := Option.bind_eq_some_iff.mp counted
      have level : AtLevel tokens opening index ↔ between = 0 := by
        rw [atLevel_iff, reached, Option.some.injEq]
        exact and_iff_right behind
      rw [tokensBetween_succ behind here, expectingAfter_concat reached, Token.expects_iff,
        inductionHypothesis (by omega) reached, isHeadless_succ behind, Separates, level, here,
        Option.map_some, Option.some.injEq, Option.any_some]

/-- What is found behind a bracket, by places. -/
theorem mem_segmentHeads_drop_iff {head : Text} :
    head ∈ segmentHeads 0 true (tokens.drop (opening + 1)) ↔
      ∃ index, AtLevel tokens opening index ∧ IsHeadless tokens opening index ∧
        ∃ name, tokens[index]? = some name ∧ name.isName ∧ baseName name.text = head := by
  have between : ∀ count, (tokens.drop (opening + 1)).take count =
      tokensBetween tokens opening (opening + 1 + count) := by
    intro count
    rw [tokensBetween, List.drop_take, Nat.add_sub_cancel_left]
  rw [mem_segmentHeads_iff]
  constructor
  · rintro ⟨passed, name, rest, split, counted, lacking, named, rfl⟩
    have here : tokens[opening + 1 + passed.length]? = some name := by
      rw [← List.getElem?_drop, split, List.getElem?_append_right (Nat.le_refl _), Nat.sub_self]
      rfl
    have passedIs : passed = tokensBetween tokens opening (opening + 1 + passed.length) := by
      rw [← between, split, List.take_left]
    have inside := (List.getElem?_eq_some_iff.mp here).1
    rw [passedIs] at counted lacking
    refine ⟨opening + 1 + passed.length, atLevel_iff.mpr ⟨by omega, counted⟩, ?_, name, here, named,
      rfl⟩
    exact (expectingAfter_iff_isHeadless (by omega) (by omega) counted).mp lacking
  · rintro ⟨index, level, headless, name, here, named, rfl⟩
    have inside := (List.getElem?_eq_some_iff.mp here).1
    obtain ⟨behind, counted⟩ := atLevel_iff.mp level
    obtain ⟨count, rfl⟩ : ∃ count, index = opening + 1 + count := ⟨index - (opening + 1), by omega⟩
    have met : (tokens.drop (opening + 1))[count]? = some name := by rw [List.getElem?_drop, here]
    have short : count < (tokens.drop (opening + 1)).length := (List.getElem?_eq_some_iff.mp met).1
    refine ⟨tokensBetween tokens opening (opening + 1 + count), name,
      (tokens.drop (opening + 1)).drop (count + 1), ?_, counted, ?_, named, rfl⟩
    · rw [← between, ← (List.getElem?_eq_some_iff.mp met).2, ← List.drop_eq_getElem_cons short,
        List.take_append_drop]
    · exact (expectingAfter_iff_isHeadless behind (by omega) counted).mpr headless

end Places

/-- Every pair comes from a bracket behind its owner. -/
theorem mem_bracketedAfter_iff {previous : Option Token} {tokens : List Token}
    {object head : Text} :
    (object, head) ∈ bracketedAfter previous tokens ↔
      ∃ before bracket inner, tokens = before ++ bracket :: inner ∧ bracket.kind = .leftBracket ∧
        (before.getLast?.or previous).map Token.text = some object ∧
        head ∈ segmentHeads 0 true inner := by
  constructor
  · intro member
    induction tokens generalizing previous with
    | nil => simp [bracketedAfter] at member
    | cons token rest inductionHypothesis =>
        unfold bracketedAfter at member
        rcases List.mem_append.mp member with here | later
        · split at here
          · next owner opens =>
            obtain ⟨found, heads, same⟩ := List.mem_map.mp here
            obtain ⟨rfl, rfl⟩ := Prod.mk.inj same
            exact ⟨[], token, rest, rfl, opens, rfl, heads⟩
          · simp at here
        · obtain ⟨before, bracket, inner, rfl, opens, owned, heads⟩ := inductionHypothesis later
          refine ⟨token :: before, bracket, inner, rfl, opens, ?_, heads⟩
          rwa [getLast?_cons_or]
  · rintro ⟨before, bracket, inner, rfl, opens, owned, heads⟩
    apply mem_bracketedAfter_append
    obtain ⟨owner, last, rfl⟩ := Option.map_eq_some_iff.mp owned
    rw [last]
    unfold bracketedAfter
    rw [opens]
    exact List.mem_append_left _ (List.mem_map.mpr ⟨head, heads, rfl⟩)

private theorem mem_bracketedAttributes_iff {tokens : List Token} {object head : Text} :
    (object, head) ∈ bracketedAttributes tokens ↔
      ∃ opening, 1 ≤ opening ∧ tokens[opening]?.map Token.kind = some .leftBracket ∧
        tokens[opening - 1]?.map Token.text = some object ∧
        head ∈ segmentHeads 0 true (tokens.drop (opening + 1)) := by
  rw [bracketedAttributes, mem_bracketedAfter_iff]
  constructor
  · rintro ⟨before, bracket, inner, rfl, opens, owned, heads⟩
    obtain ⟨owner, last, rfl⟩ := Option.map_eq_some_iff.mp owned
    rw [Option.or_none] at last
    obtain ⟨earlier, rfl⟩ := List.getLast?_eq_some_iff.mp last
    have whole : earlier ++ [owner] ++ bracket :: inner = earlier ++ [owner, bracket] ++ inner := by
      simp
    have length : earlier.length + 1 + 1 = (earlier ++ [owner, bracket]).length := by simp
    refine ⟨earlier.length + 1, by omega, ?_, ?_, ?_⟩
    · simp [opens]
    · simp
    · rwa [whole, length, List.drop_left]
  · rintro ⟨opening, owned, opens, owner, heads⟩
    obtain ⟨bracket, here, opens⟩ := Option.map_eq_some_iff.mp opens
    obtain ⟨inside, rfl⟩ := List.getElem?_eq_some_iff.mp here
    refine ⟨tokens.take opening, tokens[opening], tokens.drop (opening + 1), ?_, opens, ?_, heads⟩
    · rw [← List.drop_eq_getElem_cons inside, List.take_append_drop]
    · rw [Option.or_none, List.getLast?_take, if_neg (by omega), ← owner]
      obtain ⟨before, present, -⟩ := Option.map_eq_some_iff.mp owner
      rw [present]
      rfl

/-! ## One pass -/

/-- An open bracket: its owner, and whether its segment lacks a head. -/
structure Frame where
  owner : Option Text
  expecting : Bool

namespace Frame

/-- What a token adds to the attributes of an open bracket. -/
def pairs (frame : Frame) (token : Token) : List (Text × Text) :=
  if token.isName && frame.expecting then
    (frame.owner.map fun owner => (owner, baseName token.text)).toList
  else []

/-- What a token adds to the attributes: it is looked at by the innermost bracket only. -/
def taken (frames : List Frame) (token : Token) : List (Text × Text) :=
  (frames.head?.map fun frame => frame.pairs token).getD []

/-- The frames after a token that follows `previous`, innermost first. A closing bracket for which
none is open is passed over. -/
def advance (previous : Option Token) (frames : List Frame) (token : Token) : List Frame :=
  match token.kind with
  | .leftBracket => ⟨previous.map Token.text, true⟩ :: frames
  | .rightBracket => frames.tail
  | .comma => frames.modifyHead fun frame => { frame with expecting := true }
  | .identifier | .tag => frames.modifyHead fun frame => { frame with expecting := false }
  | .leftAngle | .rightAngle | .ampersand => frames

/-- The attributes that one pass over tokens finds. Brackets that are still open at the end reach
to it. -/
def collect : (previous : Option Token) → List Frame → List Token → List (Text × Text)
  | _, _, [] => []
  | previous, frames, token :: rest =>
    taken frames token ++ collect (some token) (advance previous frames token) rest

/-- What the bracket of a frame still finds, `nested` brackets deep inside it. -/
def share (nested : Nat) (frame : Frame) (tokens : List Token) : List (Text × Text) :=
  (segmentHeads nested frame.expecting tokens).filterMap fun head =>
    frame.owner.map fun owner => (owner, head)

/-- What the brackets of some frames still find, the first of them `nested` brackets deep. -/
def shares : (nested : Nat) → List Frame → List Token → List (Text × Text)
  | _, [], _ => []
  | nested, frame :: outer, tokens => frame.share nested tokens ++ shares (nested + 1) outer tokens

private theorem shares_nil (nested : Nat) (frames : List Frame) : shares nested frames [] = [] := by
  induction frames generalizing nested with
  | nil => rfl
  | cons frame outer inductionHypothesis =>
      rw [shares, inductionHypothesis, List.append_nil]
      rfl

/-- Only the count changes for a bracket that is not the innermost one. -/
theorem share_cons {nested next : Nat} {token : Token}
    (moves : (next : Int) = nested + 1 + token.weight) (frame : Frame) (rest : List Token) :
    frame.share (nested + 1) (token :: rest) = frame.share next rest := by
  have deeper : token.headNames (nested + 1) frame.expecting = [] := by simp [Token.headNames]
  have steps : (next : Int) = (nested + 1 : Nat) + token.weight := by omega
  rw [share, share, segmentHeads_cons steps, deeper, Token.expects_succ, List.nil_append]

theorem shares_cons {nested next : Nat} {token : Token}
    (moves : (next : Int) = nested + 1 + token.weight) (frames : List Frame) (rest : List Token) :
    shares (nested + 1) frames (token :: rest) = shares next frames rest := by
  induction frames generalizing nested next with
  | nil => rfl
  | cons frame outer inductionHypothesis =>
      have outerMoves : ((next + 1 : Nat) : Int) = (nested + 1 : Nat) + 1 + token.weight := by omega
      rw [shares, shares, share_cons moves, inductionHypothesis outerMoves]

/-- What the innermost bracket finds in a token that is no bracket. -/
theorem share_zero_cons {token : Token} (flat : token.weight = 0) (frame : Frame)
    (rest : List Token) :
    frame.share 0 (token :: rest) =
      frame.pairs token ++
        share 0 { frame with expecting := token.expects 0 frame.expecting } rest := by
  have stays : ((0 : Nat) : Int) = (0 : Nat) + token.weight := by omega
  rw [share, segmentHeads_cons stays, List.filterMap_append, share, pairs, Token.headNames]
  congr 1
  by_cases found : token.isName && frame.expecting
  · cases frame.owner <;> simp [found]
  · cases frame.owner <;> simp [found]

section Bracket

variable {token : Token}

private theorem pairs_of_bracket (bracket : token.weight ≠ 0) (frame : Frame) :
    frame.pairs token = [] := by
  have unnamed : ¬ token.isName := fun named => bracket (Token.weight_of_isName named)
  rw [pairs, if_neg]
  simp [unnamed]

private theorem shares_opening (opens : token.kind = .leftBracket) (frames : List Frame)
    (rest : List Token) : shares 0 frames (token :: rest) = shares 1 frames rest := by
  cases frames with
  | nil => rfl
  | cons frame outer =>
      have weighs : token.weight = 1 := by rw [Token.weight, opens]
      have innermost : frame.share 0 (token :: rest) = frame.share 1 rest := by
        have deeper : ((1 : Nat) : Int) = (0 : Nat) + token.weight := by omega
        rw [share, share, segmentHeads_cons deeper]
        simp [Token.headNames, Token.expects, Token.isName, opens]
      have outerMoves : ((2 : Nat) : Int) = (0 : Nat) + 1 + token.weight := by omega
      rw [shares, shares, innermost, shares_cons outerMoves]

private theorem shares_closing (closes : token.kind = .rightBracket) (frames : List Frame)
    (rest : List Token) : shares 0 frames (token :: rest) = shares 0 frames.tail rest := by
  cases frames with
  | nil => rfl
  | cons frame outer =>
      have weighs : token.weight = -1 := by rw [Token.weight, closes]
      have innermost : frame.share 0 (token :: rest) = [] := by
        rw [share, segmentHeads_cons_of_neg (by omega)]
        rfl
      have outerMoves : ((0 : Nat) : Int) = (0 : Nat) + 1 + token.weight := by omega
      rw [shares, innermost, shares_cons outerMoves]
      rfl

private theorem advance_flat (flat : token.weight = 0) (previous : Option Token) (frame : Frame)
    (outer : List Frame) :
    advance previous (frame :: outer) token =
      { frame with expecting := token.expects 0 frame.expecting } :: outer := by
  cases kind : token.kind with
  | leftBracket => simp [Token.weight, kind] at flat
  | rightBracket => simp [Token.weight, kind] at flat
  | identifier | tag | leftAngle | rightAngle | comma | ampersand =>
      simp [advance, Token.expects, kind]

end Bracket

/-- What the bracket that a token opens finds behind it. -/
def opened (previous : Option Token) (token : Token) (rest : List Token) : List (Text × Text) :=
  if token.kind = .leftBracket then share 0 ⟨previous.map Token.text, true⟩ rest else []

private theorem bracketedAfter_cons (previous : Option Token) (token : Token) (rest : List Token) :
    bracketedAfter previous (token :: rest) =
      opened previous token rest ++ bracketedAfter (some token) rest := by
  cases previous with
  | none => cases kind : token.kind <;> simp [bracketedAfter, opened, share, kind]
  | some owner => cases kind : token.kind <;> simp [bracketedAfter, opened, share, kind]

/-- A token takes from the brackets what they find in it, and leaves the rest to them and to the
bracket that it opens. -/
theorem advance_perm (previous : Option Token) (frames : List Frame) (token : Token)
    (rest : List Token) :
    (taken frames token ++ shares 0 (advance previous frames token) rest).Perm
      (shares 0 frames (token :: rest) ++ opened previous token rest) := by
  have nothing : token.weight ≠ 0 → taken frames token = [] := by
    intro bracket
    cases frames with
    | nil => rfl
    | cons frame outer => exact pairs_of_bracket bracket frame
  cases kind : token.kind with
  | leftBracket =>
      have new : shares 0 (advance previous frames token) rest =
          opened previous token rest ++ shares 1 frames rest := by
        simp [advance, opened, shares, kind]
      rw [nothing (by simp [Token.weight, kind]), new, shares_opening kind, List.nil_append]
      exact List.perm_append_comm
  | rightBracket =>
      have none : opened previous token rest = [] := by simp [opened, kind]
      rw [nothing (by simp [Token.weight, kind]), shares_closing kind, none, List.append_nil,
        List.nil_append, advance, kind]
  | identifier | tag | leftAngle | rightAngle | comma | ampersand =>
      have none : opened previous token rest = [] := by simp [opened, kind]
      have flat : token.weight = 0 := by rw [Token.weight, kind]
      rw [none, List.append_nil]
      cases frames with
      | nil => simp [taken, advance, shares, kind]
      | cons frame outer =>
          have outerMoves : ((1 : Nat) : Int) = (0 : Nat) + 1 + token.weight := by omega
          rw [advance_flat flat, shares, shares, share_zero_cons flat, shares_cons outerMoves,
            List.append_assoc]
          exact .refl _

/-- One pass finds what its frames still have to find, and what every later bracket finds. -/
theorem collect_perm (previous : Option Token) (frames : List Frame) (tokens : List Token) :
    (collect previous frames tokens).Perm
      (shares 0 frames tokens ++ bracketedAfter previous tokens) := by
  induction tokens generalizing previous frames with
  | nil =>
      rw [shares_nil]
      exact .refl []
  | cons token rest inductionHypothesis =>
      have later := inductionHypothesis (some token) (advance previous frames token)
      have here := advance_perm previous frames token rest
      rw [collect, bracketedAfter_cons]
      refine (later.append_left _).trans ?_
      rw [← List.append_assoc, ← List.append_assoc]
      exact here.append_right _

end Frame

/-- The attribute map of one pass over tokens. -/
def framedMap (tokens : List Token) : AttributeMap :=
  AttributeMap.addPairs Table.empty (Frame.collect none [] tokens)

/-- Maps with the same objects and, for each object, the same attributes, in whatever order. -/
structure AttributeMap.SameContents (left right : AttributeMap) : Prop where
  objects : ∀ object, object ∈ left.keys ↔ object ∈ right.keys
  attributes : ∀ object feature,
    feature ∈ AttributeMap.attributes left object ↔
      feature ∈ AttributeMap.attributes right object

theorem AttributeMap.sameContents_addPairs {pairs others : List (Text × Text)}
    (same : pairs.Perm others) :
    SameContents (addPairs Table.empty pairs) (addPairs Table.empty others) := by
  have attributes : ∀ object feature,
      feature ∈ AttributeMap.attributes (addPairs Table.empty pairs) object ↔
        feature ∈ AttributeMap.attributes (addPairs Table.empty others) object := by
    intro object feature
    rw [mem_attributes_addPairs, mem_attributes_addPairs, same.mem_iff]
  refine ⟨?_, attributes⟩
  intro object
  rw [(isProper_empty.addPairs pairs).mem_keys_iff, (isProper_empty.addPairs others).mem_keys_iff]
  exact exists_congr (attributes object)

/-- The attributes of a list of tokens are the names that head a segment of an owned bracket, and
one pass over the list finds them. -/
theorem bracketedMap_headsSegment (tokens : List Token) :
    (∀ object feature, feature ∈ AttributeMap.attributes (bracketedMap tokens) object ↔
      ∃ opening index, 1 ≤ opening ∧ tokens[opening - 1]?.map Token.text = some object ∧
        HeadsSegment tokens opening index ∧
        tokens[index]?.map (fun name => baseName name.text) = some feature) ∧
    AttributeMap.SameContents (bracketedMap tokens) (framedMap tokens) := by
  constructor
  · intro object feature
    have listed : feature ∈ AttributeMap.attributes (bracketedMap tokens) object ↔
        (object, feature) ∈ bracketedAttributes tokens := by
      rw [bracketedMap, AttributeMap.mem_attributes_addPairs]
      exact or_iff_right (by simp [AttributeMap.attributes])
    rw [listed, mem_bracketedAttributes_iff]
    constructor
    · rintro ⟨opening, owned, opens, owner, found⟩
      obtain ⟨index, level, headless, name, here, named, rfl⟩ := mem_segmentHeads_drop_iff.mp found
      exact ⟨opening, index, owned, owner, ⟨opens, level, by simpa [here] using named, headless⟩,
        by rw [here, Option.map_some]⟩
    · rintro ⟨opening, index, owned, owner, heads, based⟩
      obtain ⟨name, here, rfl⟩ := Option.map_eq_some_iff.mp based
      refine ⟨opening, owned, heads.opens, owner, mem_segmentHeads_drop_iff.mpr ?_⟩
      exact ⟨index, heads.level, heads.headless, name, here, by simpa [here] using heads.named, rfl⟩
  · exact AttributeMap.sameContents_addPairs (Frame.collect_perm none [] tokens).symm

/-- Between unmatched brackets, a name that stands behind a nested bracket heads a segment. -/
example : bracketedAttributes (tokenize "] A [ [ x, y ], b c [".toList) =
    [(['A'], ['b']), (['['], ['x']), (['['], ['y'])] := by
  decide

end GrammarLens
