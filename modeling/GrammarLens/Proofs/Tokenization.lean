import GrammarLens.Proofs.NameRun
import Mathlib.Data.List.Basic

/-!
Contract: tokenization is the one way to cover a text by longest names and structural
characters.

Owns:
- dotted names, where one may begin and where it has to end;
- the token at the start of a text, by its shape and by what follows it;
- the scan as a relation: at every place a token or a gap of one character;
- tokens that stand in a text, of which no two overlap;
- tokenizations, and that a text has no other than the one computed.

## Why overlapping tokens are equal

A token says where it ends, by what follows it, and where it begins, by what stands before it. A
second name that began inside a first one would have a name character, a hash or the dot of the first
name before it, and none of these may stand there.
-/

namespace GrammarLens

/-! ## Dotted names -/

/-- Runs of name characters joined by single dots. -/
inductive IsDotted : Text → Prop
  | run {name : Text} (isName : IsName name) : IsDotted name
  | dot {name rest : Text} (isName : IsName name) (dotted : IsDotted rest) :
      IsDotted (name ++ '.' :: rest)

/-- A name ends before a text that goes on neither with a name character nor with a dot and a name
character. -/
def NameEnds (rest : Text) : Prop :=
  (∀ c, rest.head? = some c → isNameChar c = false) ∧
    ∀ c later, rest = '.' :: c :: later → isNameChar c = false

/-- A name without a hash begins behind a text that ends neither with a name character nor with a
hash, nor with a name character and a dot. -/
def NameBegins (before : Text) : Prop :=
  (∀ c, before.getLast? = some c → isNameChar c = false ∧ c ≠ '#') ∧
    ∀ earlier c, before = earlier ++ [c, '.'] → isNameChar c = false

namespace IsDotted

variable {name : Text}

theorem exists_cons (dotted : IsDotted name) :
    ∃ c rest, name = c :: rest ∧ isNameChar c := by
  have first : ∀ {run : Text}, IsName run → ∃ c rest, run = c :: rest ∧ isNameChar c := by
    intro run isName
    obtain ⟨c, rest, shape⟩ := List.exists_cons_of_ne_nil isName.1
    exact ⟨c, rest, shape, isName.2 c (shape ▸ List.mem_cons_self)⟩
  cases dotted with
  | run isName => exact first isName
  | dot isName dotted =>
      obtain ⟨c, rest, rfl, belongs⟩ := first isName
      exact ⟨c, _, rfl, belongs⟩

theorem exists_getLast? (dotted : IsDotted name) :
    ∃ c, name.getLast? = some c ∧ isNameChar c := by
  induction dotted with
  | run isName => exact isName.exists_getLast?
  | dot isName dotted inductionHypothesis =>
      obtain ⟨c, last, belongs⟩ := inductionHypothesis
      refine ⟨c, ?_, belongs⟩
      rw [List.getLast?_append_of_ne_nil _ (by simp), List.getLast?_cons, last]
      rfl

theorem mem (dotted : IsDotted name) {c : Char} (member : c ∈ name) : isNameChar c ∨ c = '.' := by
  induction dotted with
  | run isName => exact .inl (isName.2 c member)
  | dot isName dotted inductionHypothesis =>
      rcases List.mem_append.mp member with inRun | later
      · exact .inl (isName.2 c inRun)
      · rcases List.mem_cons.mp later with same | inRest
        · exact .inr same
        · exact inductionHypothesis inRest

/-- A dot inside a dotted name follows a name character. -/
theorem before_dot (dotted : IsDotted name) {before rest : Text}
    (split : name = before ++ '.' :: rest) :
    ∃ earlier c, before = earlier ++ [c] ∧ isNameChar c := by
  induction dotted generalizing before with
  | run isName =>
      have inName : '.' ∈ before ++ '.' :: rest := by simp
      exact absurd (split ▸ inName) isName.plain.1
  | @dot name more isName dotted inductionHypothesis =>
      obtain ⟨c, last, belongs⟩ := isName.exists_getLast?
      obtain ⟨earlier, ends⟩ := List.getLast?_eq_some_iff.mp last
      rcases List.append_eq_append_iff.mp split with ⟨between, shape, tail⟩ | ⟨between, shape, tail⟩
      · cases between with
        | nil => exact ⟨earlier, c, by rw [shape, ends, List.append_nil], belongs⟩
        | cons first between =>
            obtain ⟨earlier, d, rfl, dBelongs⟩ := inductionHypothesis (List.cons.inj tail).2
            exact ⟨name ++ first :: earlier, d, by rw [shape]; simp, dBelongs⟩
      · cases between with
        | nil => exact ⟨earlier, c, by rw [← ends, shape, List.append_nil], belongs⟩
        | cons first between =>
            obtain ⟨rfl, -⟩ := List.cons.inj tail
            exact absurd (by rw [shape]; simp) isName.plain.1

/-- No name without a hash begins inside a dotted name. -/
theorem not_nameBegins {front before rest : Text} (dotted : IsDotted (before ++ rest))
    (inside : before ≠ []) : ¬ NameBegins (front ++ before) := by
  intro begins
  obtain ⟨earlier, last, rfl⟩ := (List.eq_nil_or_concat' before).resolve_left inside
  rcases dotted.mem (c := last) (by simp) with belongs | rfl
  · have stops := (begins.1 last (by simp)).1
    simp [belongs] at stops
  · obtain ⟨earliest, c, rfl, belongs⟩ :=
      dotted.before_dot (List.append_assoc earlier ['.'] rest)
    have stops := begins.2 (front ++ earliest) c (by simp)
    simp [belongs] at stops

end IsDotted

theorem NameEnds.dottedRest_eq {rest : Text} (ends : NameEnds rest) : dottedRest rest = [] := by
  cases rest with
  | nil => rfl
  | cons c later =>
      rw [dottedRest, ends.1 c rfl]
      by_cases dot : c = '.'
      · subst dot
        have stops : later.head?.any isNameChar = false := by
          cases later with
          | nil => rfl
          | cons d others => exact ends.2 d others rfl
        simp [stops]
      · simp [dot]

private theorem dottedRest_append {name : Text} (named : ∀ c ∈ name, isNameChar c) (rest : Text) :
    dottedRest (name ++ rest) = name ++ dottedRest rest := by
  induction name with
  | nil => rfl
  | cons c name inductionHypothesis =>
      rw [List.cons_append, dottedRest, if_pos (named c List.mem_cons_self),
        inductionHypothesis fun d member => named d (List.mem_cons_of_mem _ member)]
      rfl

/-- The longest dotted name at the start of a text is the one that ends there. -/
theorem IsDotted.dottedName_append {name rest : Text} (dotted : IsDotted name)
    (ends : NameEnds rest) : dottedName (name ++ rest) = name := by
  have whole : dottedRest (name ++ rest) = name := by
    induction dotted with
    | run isName => rw [dottedRest_append isName.2, ends.dottedRest_eq, List.append_nil]
    | dot isName dotted inductionHypothesis =>
        obtain ⟨c, later, rfl, belongs⟩ := dotted.exists_cons
        rw [List.append_assoc, dottedRest_append isName.2, List.cons_append, dottedRest,
          if_neg (by decide), if_pos (by simp [belongs]), inductionHypothesis]
  obtain ⟨c, later, rfl, belongs⟩ := dotted.exists_cons
  rw [dottedName, if_pos (by simp [belongs]), whole]

private theorem exists_dotted (text : Text) (starts : text.head?.any isNameChar) :
    ∃ name rest, text = name ++ rest ∧ IsDotted name ∧ NameEnds rest := by
  have split := (List.takeWhile_append_dropWhile (p := isNameChar) (l := text)).symm
  have isName : IsName (text.takeWhile isNameChar) := by
    apply isName_takeWhile
    cases text with
    | nil => simp at starts
    | cons c later => simpa using starts
  have stops : ∀ c, (text.dropWhile isNameChar).head? = some c → isNameChar c = false :=
    fun c => Text.head?_dropWhile
  by_cases joined : ∃ c later, text.dropWhile isNameChar = '.' :: c :: later ∧ isNameChar c
  · obtain ⟨c, later, shape, belongs⟩ := joined
    have shorter : (c :: later).length < text.length := by
      rw [split, shape]
      simp only [List.length_append, List.length_cons]
      omega
    obtain ⟨name, rest, tail, dotted, ends⟩ := exists_dotted (c :: later) (by simpa using belongs)
    refine ⟨text.takeWhile isNameChar ++ '.' :: name, rest, ?_, .dot isName dotted, ends⟩
    rw [List.append_assoc, List.cons_append, ← tail, ← shape, ← split]
  · refine ⟨_, _, split, .run isName, stops, ?_⟩
    intro c later shape
    by_contra belongs
    exact joined ⟨c, later, shape, by simpa using belongs⟩
termination_by text.length

/-! ## The token at the start of a text -/

/-- The text of a token of a kind, when `rest` follows it: a dotted name that ends there, a hash and
such a name, or one structural character. -/
inductive IsLexeme (rest : Text) : TokenKind → Text → Prop
  | identifier {name : Text} (dotted : IsDotted name) (ends : NameEnds rest) :
      IsLexeme rest .identifier name
  | tag {name : Text} (dotted : IsDotted name) (ends : NameEnds rest) :
      IsLexeme rest .tag ('#' :: name)
  | structural {c : Char} {kind : TokenKind} (known : TokenKind.ofChar? c = some kind) :
      IsLexeme rest kind [c]

theorem TokenKind.ofChar?_cases {c : Char} {kind : TokenKind} (known : ofChar? c = some kind) :
    isNameChar c = false ∧ c ≠ '#' ∧ c ≠ '.' ∧ kind ≠ .identifier ∧ kind ≠ .tag := by
  unfold ofChar? at known
  split at known <;> simp at known <;> subst known <;> decide

theorem IsLexeme.ne_nil {rest lexeme : Text} {kind : TokenKind} (shape : IsLexeme rest kind lexeme) :
    lexeme ≠ [] := by
  cases shape with
  | identifier dotted ends =>
      obtain ⟨c, later, rfl, -⟩ := dotted.exists_cons
      simp
  | tag dotted ends => simp
  | structural known => simp

theorem leadingToken?_eq_some_iff {text lexeme : Text} {kind : TokenKind} :
    leadingToken? text = some (kind, lexeme) ↔
      ∃ rest, text = lexeme ++ rest ∧ IsLexeme rest kind lexeme := by
  constructor
  · intro leads
    cases text with
    | nil => simp [leadingToken?] at leads
    | cons c later =>
        rw [leadingToken?] at leads
        split at leads
        · next belongs =>
          obtain ⟨name, rest, split, dotted, ends⟩ :=
            exists_dotted (c :: later) (by simpa using belongs)
          rw [split, dotted.dottedName_append ends] at leads
          obtain ⟨rfl, rfl⟩ := Prod.mk.inj (Option.some.inj leads)
          exact ⟨rest, split, .identifier dotted ends⟩
        · split at leads
          · next tagged =>
            simp only [Bool.and_eq_true, decide_eq_true_eq] at tagged
            obtain ⟨rfl, starts⟩ := tagged
            obtain ⟨name, rest, rfl, dotted, ends⟩ := exists_dotted later starts
            rw [dotted.dottedName_append ends] at leads
            obtain ⟨rfl, rfl⟩ := Prod.mk.inj (Option.some.inj leads)
            exact ⟨rest, rfl, .tag dotted ends⟩
          · obtain ⟨found, known, same⟩ := Option.map_eq_some_iff.mp leads
            obtain ⟨rfl, rfl⟩ := Prod.mk.inj same
            exact ⟨later, rfl, .structural known⟩
  · intro shaped
    obtain ⟨rest, rfl, shape⟩ := shaped
    cases shape with
    | identifier dotted ends =>
        have munched := dotted.dottedName_append ends
        obtain ⟨c, later, rfl, belongs⟩ := dotted.exists_cons
        rw [List.cons_append] at munched ⊢
        rw [leadingToken?, if_pos belongs, munched]
    | @tag name dotted ends =>
        have starts : (name ++ rest).head?.any isNameChar := by
          obtain ⟨c, later, rfl, belongs⟩ := dotted.exists_cons
          simpa using belongs
        rw [List.cons_append, leadingToken?, if_neg (by decide), if_pos (by rw [starts]; rfl),
          dotted.dottedName_append ends]
    | @structural c kind known =>
        obtain ⟨other, notHash, -⟩ := TokenKind.ofChar?_cases known
        rw [List.singleton_append, leadingToken?, if_neg (by simp [other]),
          if_neg (by simp [notHash]), known]
        rfl

/-- Where no token starts, neither a name character stands nor a structural one, nor a hash before a
name character. -/
theorem leadingToken?_eq_none {c : Char} {rest : Text} (none : leadingToken? (c :: rest) = none) :
    isNameChar c = false ∧ TokenKind.ofChar? c = .none ∧
      (c = '#' → ∀ d, rest.head? = some d → isNameChar d = false) := by
  rw [leadingToken?] at none
  split at none
  · simp at none
  · next other =>
    split at none
    · simp at none
    · next untagged =>
      refine ⟨by simpa using other, Option.map_eq_none_iff.mp none, ?_⟩
      intro hash d first
      simpa [hash, first] using untagged

/-! ## The scan -/

/-- The tokens of a text whose first character has a given offset. -/
def tokensFrom (offset : Nat) (text : Text) : List Token :=
  (text.occurrencesFrom (fun suffix =>
    (leadingToken? suffix).map fun found => (found, found.2.length)) offset 0).map
    fun (offset, kind, lexeme) => ⟨kind, lexeme, offset⟩

/-- The scan of a text from an offset on: where no token starts it goes on by one character. -/
inductive Lexes : Nat → Text → List Token → Prop
  | nil {offset : Nat} : Lexes offset [] []
  | gap {offset : Nat} {c : Char} {rest : Text} {tokens : List Token}
      (none : leadingToken? (c :: rest) = none) (later : Lexes (offset + 1) rest tokens) :
      Lexes offset (c :: rest) tokens
  | token {offset : Nat} {kind : TokenKind} {lexeme rest : Text} {tokens : List Token}
      (shape : IsLexeme rest kind lexeme) (later : Lexes (offset + lexeme.length) rest tokens) :
      Lexes offset (lexeme ++ rest) (⟨kind, lexeme, offset⟩ :: tokens)

theorem tokensFrom_gap {c : Char} {rest : Text} (none : leadingToken? (c :: rest) = none)
    (offset : Nat) : tokensFrom offset (c :: rest) = tokensFrom (offset + 1) rest := by
  rw [tokensFrom, Text.occurrencesFrom_of_none (by rw [none]; rfl), tokensFrom]

theorem tokensFrom_append {lexeme rest : Text} {kind : TokenKind}
    (shape : IsLexeme rest kind lexeme) (offset : Nat) :
    tokensFrom offset (lexeme ++ rest) =
      ⟨kind, lexeme, offset⟩ :: tokensFrom (offset + lexeme.length) rest := by
  have leads := leadingToken?_eq_some_iff.mpr ⟨rest, rfl, shape⟩
  rw [tokensFrom, Text.occurrencesFrom_of_some (by rw [leads]; rfl) shape.ne_nil, tokensFrom]
  rfl

theorem lexes_tokensFrom (offset : Nat) (text : Text) :
    Lexes offset text (tokensFrom offset text) := by
  cases text with
  | nil => exact .nil
  | cons c later =>
      cases leads : leadingToken? (c :: later) with
      | none =>
          rw [tokensFrom_gap leads]
          exact .gap leads (lexes_tokensFrom (offset + 1) later)
      | some found =>
          obtain ⟨rest, split, shape⟩ := leadingToken?_eq_some_iff.mp leads
          have shorter : rest.length < (c :: later).length := by
            have positive := List.length_pos_iff.mpr shape.ne_nil
            rw [split, List.length_append]
            omega
          rw [split, tokensFrom_append shape]
          exact .token shape (lexes_tokensFrom _ rest)
termination_by text.length
decreasing_by
  · exact Nat.lt_succ_self _
  · exact shorter

/-! ## Tokens in a text -/

namespace Token

/-- A token that stands in a text: at its offset, with the longest text of its kind, and not begun
inside a name. -/
def Stands (text : Text) (token : Token) : Prop :=
  ∃ before rest, text = before ++ token.text ++ rest ∧ token.offset = before.length ∧
    IsLexeme rest token.kind token.text ∧ (token.kind = .identifier → NameBegins before)

def Covers (token : Token) (place : Nat) : Prop := token.offset ≤ place ∧ place < token.finish

/-- A token that ends before another begins. -/
def Precedes (left right : Token) : Prop :=
  left.offset < right.offset ∧ left.finish ≤ right.offset

end Token

/-- A place from which the scan may go on: a name that comes next begins there, and a name that
stands before ends there. -/
structure Fresh (before rest : Text) : Prop where
  begins : ∀ c, rest.head? = some c → isNameChar c → NameBegins before
  ends : ∀ c, before.getLast? = some c → isNameChar c → NameEnds rest

theorem Fresh.gap {before rest : Text} {c : Char} (fresh : Fresh before (c :: rest))
    (none : leadingToken? (c :: rest) = none) : Fresh (before ++ [c]) rest := by
  obtain ⟨other, -, untagged⟩ := leadingToken?_eq_none none
  constructor
  · intro d first belongs
    constructor
    · intro last isLast
      obtain rfl : c = last := by simpa using isLast
      refine ⟨other, fun hash => ?_⟩
      simp [untagged hash d first] at belongs
    · intro earlier e shape
      have parts : before ++ [c] = (earlier ++ [e]) ++ ['.'] := by simpa using shape
      obtain ⟨rfl, same⟩ := List.append_inj' parts rfl
      obtain rfl := List.singleton_injective same
      by_contra inName
      obtain ⟨later, rfl⟩ := List.head?_eq_some_iff.mp first
      have stops := (fresh.ends e (by simp) (by simpa using inName)).2 d later rfl
      simp [stops] at belongs
  · intro last isLast belongs
    obtain rfl : c = last := by simpa using isLast
    simp [other] at belongs

theorem Fresh.token {before rest lexeme : Text} {kind : TokenKind}
    (shape : IsLexeme rest kind lexeme) : Fresh (before ++ lexeme) rest := by
  -- Behind a name only its end counts, behind a structural character nothing does.
  have behindName : ∀ {name : Text} (front : Text), IsDotted name → NameEnds rest →
      Fresh (front ++ name) rest := by
    intro name front dotted ends
    constructor
    · intro c first belongs
      simp [ends.1 c first] at belongs
    · exact fun _ _ _ => ends
  cases shape with
  | identifier dotted ends => exact behindName before dotted ends
  | tag dotted ends =>
      rw [List.append_cons]
      exact behindName (before ++ ['#']) dotted ends
  | @structural c kind known =>
      obtain ⟨other, notHash, notDot, -⟩ := TokenKind.ofChar?_cases known
      constructor
      · intro d first belongs
        constructor
        · intro last isLast
          obtain rfl : c = last := by simpa using isLast
          exact ⟨other, notHash⟩
        · intro earlier e ended
          have parts : before ++ [c] = (earlier ++ [e]) ++ ['.'] := by simpa using ended
          exact absurd (List.singleton_injective (List.append_inj' parts rfl).2) notDot
      · intro last isLast belongs
        obtain rfl : c = last := by simpa using isLast
        simp [other] at belongs

namespace Lexes

variable {offset : Nat} {text : Text} {tokens : List Token}

private theorem stands (lexes : Lexes offset text tokens) (before : Text)
    (reached : offset = before.length)
    (fresh : Fresh before text) : ∀ token ∈ tokens, token.Stands (before ++ text) := by
  induction lexes generalizing before with
  | nil => simp
  | @gap offset c rest tokens none later inductionHypothesis =>
      have next := inductionHypothesis (before ++ [c]) (by simp [reached]) (fresh.gap none)
      rwa [List.append_assoc] at next
  | @token offset kind lexeme rest tokens shape later inductionHypothesis =>
      have next := inductionHypothesis (before ++ lexeme) (by simp [reached])
        (Fresh.token shape)
      rw [List.append_assoc] at next
      rw [List.forall_mem_cons]
      refine ⟨⟨before, rest, (List.append_assoc ..).symm, reached, shape, ?_⟩, next⟩
      rintro ⟨⟩
      cases shape with
      | identifier dotted ends =>
          obtain ⟨c, others, rfl, belongs⟩ := dotted.exists_cons
          exact fresh.begins c rfl belongs
      | structural known => exact absurd rfl (TokenKind.ofChar?_cases known).2.2.2.1

private theorem ordered (lexes : Lexes offset text tokens) :
    (∀ token ∈ tokens, offset ≤ token.offset) ∧ tokens.Pairwise Token.Precedes := by
  induction lexes with
  | nil => simp
  | gap none later inductionHypothesis =>
      refine ⟨fun token member => ?_, inductionHypothesis.2⟩
      have bound := inductionHypothesis.1 token member
      omega
  | @token offset kind lexeme rest tokens shape later inductionHypothesis =>
      have positive := List.length_pos_iff.mpr shape.ne_nil
      constructor
      · rw [List.forall_mem_cons]
        refine ⟨Nat.le_refl _, fun token member => ?_⟩
        have bound := inductionHypothesis.1 token member
        omega
      · rw [List.pairwise_cons]
        refine ⟨fun token member => ?_, inductionHypothesis.2⟩
        have bound := inductionHypothesis.1 token member
        show offset < token.offset ∧ offset + lexeme.length ≤ token.offset
        omega

private theorem covered (lexes : Lexes offset text tokens) (before : Text) {rest : Text} {c : Char}
    (split : text = before ++ c :: rest) (counts : isNameChar c ∨ (TokenKind.ofChar? c).isSome) :
    ∃ token ∈ tokens, token.Covers (offset + before.length) := by
  induction lexes generalizing before with
  | nil => simp at split
  | @gap offset d others tokens none later inductionHypothesis =>
      cases before with
      | nil =>
          obtain ⟨rfl, -⟩ := List.cons.inj split
          obtain ⟨other, unstructured, -⟩ := leadingToken?_eq_none none
          simp [other, unstructured] at counts
      | cons first before =>
          obtain ⟨token, member, covers⟩ := inductionHypothesis before (List.cons.inj split).2
          refine ⟨token, member, ?_⟩
          rwa [List.length_cons, Nat.add_comm before.length 1, ← Nat.add_assoc]
  | @token offset kind lexeme others tokens shape later inductionHypothesis =>
      rcases List.append_eq_append_iff.mp split with ⟨between, rfl, tail⟩ | ⟨between, rfl, tail⟩
      · obtain ⟨token, member, covers⟩ := inductionHypothesis between tail
        refine ⟨token, List.mem_cons_of_mem _ member, ?_⟩
        rwa [List.length_append, ← Nat.add_assoc]
      · cases between with
        | nil =>
            obtain ⟨token, member, covers⟩ := inductionHypothesis [] tail.symm
            refine ⟨token, List.mem_cons_of_mem _ member, ?_⟩
            rwa [List.append_nil] at covers
        | cons first between =>
            refine ⟨_, List.mem_cons_self, Nat.le_add_right .., ?_⟩
            show offset + before.length < offset + (before ++ first :: between).length
            rw [List.length_append, List.length_cons]
            omega

end Lexes

/-! ## No two tokens overlap -/

/-- Behind its first character the text of a token holds name characters and dots only, and no name
begins there. -/
theorem IsLexeme.inside {rest before later : Text} {kind : TokenKind} {c : Char}
    (shape : IsLexeme rest kind (before ++ c :: later)) (inside : before ≠ []) :
    (isNameChar c ∨ c = '.') ∧ ∀ front, ¬ NameBegins (front ++ before) := by
  generalize whole : before ++ c :: later = lexeme at shape
  cases shape with
  | identifier dotted ends =>
      rw [← whole] at dotted
      exact ⟨dotted.mem (by simp), fun front => dotted.not_nameBegins inside⟩
  | @tag name dotted ends =>
      obtain ⟨first, before, rfl⟩ := List.exists_cons_of_ne_nil inside
      obtain ⟨rfl, rfl⟩ := List.cons.inj whole
      refine ⟨dotted.mem (by simp), fun front => ?_⟩
      by_cases atHash : before = []
      · intro begins
        exact (begins.1 '#' (by simp [atHash])).2 rfl
      · rw [List.append_cons]
        exact dotted.not_nameBegins atHash
  | structural known =>
      obtain ⟨first, before, rfl⟩ := List.exists_cons_of_ne_nil inside
      simp at whole

theorem IsLexeme.kind_of_head {rest later : Text} {kind : TokenKind} {c : Char}
    (shape : IsLexeme rest kind (c :: later)) (inName : isNameChar c ∨ c = '.') :
    kind = .identifier := by
  generalize whole : c :: later = lexeme at shape
  cases shape with
  | identifier => rfl
  | tag =>
      obtain ⟨rfl, -⟩ := List.cons.inj whole
      simp [isNameChar_hash] at inName
  | structural known =>
      obtain ⟨rfl, -⟩ := List.cons.inj whole
      obtain ⟨other, -, notDot, -⟩ := TokenKind.ofChar?_cases known
      simp [other, notDot] at inName

namespace Token.Stands

variable {text : Text} {first second : Token}

/-- No token begins inside another. -/
theorem finish_le_offset (firstStands : first.Stands text) (secondStands : second.Stands text)
    (earlier : first.offset < second.offset) : first.finish ≤ second.offset := by
  obtain ⟨before, rest, rfl, place, shape, -⟩ := firstStands
  obtain ⟨secondBefore, secondRest, split, secondPlace, secondShape, begins⟩ := secondStands
  by_contra overlap
  rw [finish] at overlap
  rw [List.append_assoc, List.append_assoc] at split
  rcases List.append_eq_append_iff.mp split with ⟨between, rfl, tail⟩ | ⟨between, rfl, -⟩
  · rcases List.append_eq_append_iff.mp tail with ⟨gap, rfl, -⟩ | ⟨inner, whole, next⟩
    · simp only [List.length_append] at *
      omega
    · have occupied : inner ≠ [] := by
        rintro rfl
        rw [whole] at overlap
        simp only [List.length_append, List.length_nil] at *
        omega
      have behind : between ≠ [] := by
        rintro rfl
        simp only [List.length_append, List.length_nil] at *
        omega
      obtain ⟨c, later, rfl⟩ := List.exists_cons_of_ne_nil occupied
      obtain ⟨d, others, opens⟩ := List.exists_cons_of_ne_nil secondShape.ne_nil
      rw [opens] at next secondShape
      obtain ⟨rfl, -⟩ := List.cons.inj next
      rw [whole] at shape
      obtain ⟨inName, unbegun⟩ := shape.inside behind
      exact unbegun before (begins (secondShape.kind_of_head inName))
  · simp only [List.length_append] at *
    omega

private theorem eq_of_offset (firstStands : first.Stands text) (secondStands : second.Stands text)
    (same : first.offset = second.offset) : first = second := by
  obtain ⟨before, rest, rfl, place, shape, -⟩ := firstStands
  obtain ⟨secondBefore, secondRest, split, secondPlace, secondShape, -⟩ := secondStands
  rw [List.append_assoc, List.append_assoc] at split
  obtain ⟨rfl, tail⟩ := List.append_inj split (by omega)
  have leads := leadingToken?_eq_some_iff.mpr ⟨rest, rfl, shape⟩
  rw [tail, leadingToken?_eq_some_iff.mpr ⟨secondRest, rfl, secondShape⟩] at leads
  obtain ⟨sameKind, sameText⟩ := Prod.mk.inj (Option.some.inj leads)
  cases first
  cases second
  simp_all

/-- Tokens of one text that share a place are the same. -/
theorem eq_of_covers (firstStands : first.Stands text) (secondStands : second.Stands text)
    {place : Nat} (firstCovers : first.Covers place) (secondCovers : second.Covers place) :
    first = second := by
  obtain ⟨firstFrom, firstTo⟩ := firstCovers
  obtain ⟨secondFrom, secondTo⟩ := secondCovers
  apply firstStands.eq_of_offset secondStands
  rcases Nat.lt_trichotomy first.offset second.offset with earlier | same | later
  · have apart := firstStands.finish_le_offset secondStands earlier
    omega
  · exact same
  · have apart := secondStands.finish_le_offset firstStands later
    omega

/-- Every token covers a character that a tokenization has to cover. -/
theorem exists_counting (stands : first.Stands text) :
    ∃ before c rest, text = before ++ c :: rest ∧
      (isNameChar c ∨ (TokenKind.ofChar? c).isSome) ∧ first.Covers before.length := by
  obtain ⟨kind, lexeme, offset⟩ := first
  obtain ⟨before, rest, rfl, rfl, shape, -⟩ := stands
  unfold Covers finish
  cases shape with
  | identifier dotted ends =>
      obtain ⟨c, later, rfl, belongs⟩ := dotted.exists_cons
      exact ⟨before, c, later ++ rest, by simp, .inl belongs, by simp⟩
  | tag dotted ends =>
      obtain ⟨c, later, rfl, belongs⟩ := dotted.exists_cons
      exact ⟨before ++ ['#'], c, later ++ rest, by simp, .inl belongs, by simp⟩
  | @structural c kind known =>
      exact ⟨before, c, rest, by simp, .inr (by simp [known]), by simp⟩

/-- A token that starts with a name character does not start inside a name. -/
theorem nameBegins {before rest : Text} {c : Char} (stands : first.Stands (before ++ c :: rest))
    (place : first.offset = before.length) (belongs : isNameChar c) : NameBegins before := by
  obtain ⟨other, otherRest, split, otherPlace, shape, begins⟩ := stands
  rw [List.append_assoc] at split
  obtain ⟨rfl, tail⟩ := List.append_inj split (by omega)
  obtain ⟨d, later, opens⟩ := List.exists_cons_of_ne_nil shape.ne_nil
  rw [opens] at shape tail
  obtain ⟨rfl, -⟩ := List.cons.inj tail
  exact begins (shape.kind_of_head (.inl belongs))

end Token.Stands

/-! ## Tokenizations -/

/-- A token list that covers a text by longest names and structural characters. -/
structure IsTokenization (text : Text) (tokens : List Token) : Prop where
  ordered : tokens.Pairwise Token.Precedes
  stands : ∀ token ∈ tokens, token.Stands text
  covered : ∀ before c rest, text = before ++ c :: rest →
    isNameChar c ∨ (TokenKind.ofChar? c).isSome →
    ∃! token, token ∈ tokens ∧ token.Covers before.length
  /-- A hash that no token covers is not followed by a name character. -/
  hashes : ∀ before c rest, text = before ++ '#' :: c :: rest → isNameChar c →
    ∃ token ∈ tokens, token.Covers before.length
  /-- A dot that no token covers does not stand between two name characters. -/
  dots : ∀ before c d rest, text = before ++ c :: '.' :: d :: rest → isNameChar c → isNameChar d →
    ∃ token ∈ tokens, token.Covers (before ++ [c]).length

private theorem isTokenization_of_covered {text : Text} {tokens : List Token}
    (ordered : tokens.Pairwise Token.Precedes) (stands : ∀ token ∈ tokens, token.Stands text)
    (covered : ∀ before c rest, text = before ++ c :: rest →
      isNameChar c ∨ (TokenKind.ofChar? c).isSome →
      ∃ token ∈ tokens, token.Covers before.length) : IsTokenization text tokens := by
  -- The token of a name character reaches back over what stands before, unless a name begins there.
  have reachesBack : ∀ before d c rest, text = before ++ d :: c :: rest → isNameChar c →
      ¬ NameBegins (before ++ [d]) → ∃ token ∈ tokens, token.Covers before.length := by
    intro before d c rest split belongs unbegun
    have regrouped : text = (before ++ [d]) ++ c :: rest := by simpa using split
    obtain ⟨token, member, reaches, within⟩ := covered _ c rest regrouped (.inl belongs)
    rw [List.length_append, List.length_singleton] at reaches within
    refine ⟨token, member, ?_, by omega⟩
    by_contra behind
    have place : token.offset = (before ++ [d]).length := by
      rw [List.length_append, List.length_singleton]
      omega
    exact unbegun ((regrouped ▸ stands token member).nameBegins place belongs)
  refine ⟨ordered, stands, ?covered, ?hashes, ?dots⟩
  case covered =>
      intro before c rest split counts
      obtain ⟨token, member, covers⟩ := covered before c rest split counts
      refine ⟨token, ⟨member, covers⟩, ?_⟩
      intro other present
      exact (stands other present.1).eq_of_covers (stands token member) present.2 covers
  case hashes =>
      intro before c rest split belongs
      apply reachesBack before '#' c rest split belongs
      intro begins
      exact (begins.1 '#' (by simp)).2 rfl
  case dots =>
      intro before c d rest split cBelongs dBelongs
      apply reachesBack (before ++ [c]) '.' d rest (by simpa using split) dBelongs
      intro begins
      have stops := begins.2 before c (by simp)
      simp [cBelongs] at stops

theorem isTokenization_tokenize (text : Text) : IsTokenization text (tokenize text) := by
  have lexes : Lexes 0 text (tokenize text) := lexes_tokensFrom 0 text
  have fresh : Fresh [] text := by
    constructor
    · intro c _ _
      refine ⟨by simp, ?_⟩
      intro earlier d shape
      simp at shape
    · simp
  apply isTokenization_of_covered lexes.ordered.2 (lexes.stands [] rfl fresh)
  intro before c rest split counts
  obtain ⟨token, member, covers⟩ := lexes.covered before split counts
  exact ⟨token, member, by rwa [Nat.zero_add] at covers⟩

namespace IsTokenization

variable {text : Text} {tokens : List Token}

/-- A tokenization has every token that stands in the text. -/
theorem mem_iff (tokenization : IsTokenization text tokens) (token : Token) :
    token ∈ tokens ↔ token.Stands text := by
  constructor
  · exact tokenization.stands token
  · intro stands
    obtain ⟨before, c, rest, split, counts, covers⟩ := stands.exists_counting
    obtain ⟨other, ⟨member, otherCovers⟩, -⟩ := tokenization.covered before c rest split counts
    rwa [stands.eq_of_covers (tokenization.stands other member) covers otherCovers]

theorem nodup (tokenization : IsTokenization text tokens) : tokens.Nodup := by
  apply tokenization.ordered.imp
  rintro left right ⟨earlier, -⟩ rfl
  omega

private theorem eq (tokenization : IsTokenization text tokens) {others : List Token}
    (other : IsTokenization text others) : tokens = others := by
  have same : tokens.Perm others := by
    rw [List.perm_ext_iff_of_nodup tokenization.nodup other.nodup]
    intro token
    rw [tokenization.mem_iff, other.mem_iff]
  apply same.eq_of_pairwise _ tokenization.ordered other.ordered
  rintro left right _ _ ⟨before, -⟩ ⟨after, -⟩
  omega

end IsTokenization

/-- The computed tokens are a tokenization of the text, and it has no other. -/
theorem isTokenization_iff (text : Text) (tokens : List Token) :
    IsTokenization text tokens ↔ tokens = tokenize text := by
  constructor
  · intro tokenization
    exact tokenization.eq (isTokenization_tokenize text)
  · rintro rfl
    exact isTokenization_tokenize text

-- A hash before a hash, and a dot before a dot or at the end, separate tokens.
example : tokenize "##a.b..c,".toList =
    [⟨.tag, "#a.b".toList, 1⟩, ⟨.identifier, ['c'], 7⟩, ⟨.comma, [','], 8⟩] := by
  decide

end GrammarLens
