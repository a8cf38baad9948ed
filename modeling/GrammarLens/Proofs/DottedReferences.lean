import GrammarLens.Attributes
import GrammarLens.Proofs.Lines
import GrammarLens.Proofs.Tokenization

/-!
Contract: the scan for dotted references sees the names that the tokenizer sees.

Owns:
- the segments of a name token, and the reference that its first two make;
- the dotted references of a text are those of its tokens, in order, comments included;
- texts in which nothing is a comment, whose tokens are those outside comments.

Does not own: what a workspace makes of references.

## Why the two scans meet again behind each token

The scan for references takes a whole dotted name or goes on by one character, so it does not pass
over a name of one segment at once as the tokenizer does. But inside such a name nothing matches,
because what follows the name is not a dot with a name behind it.
-/

namespace GrammarLens

/-! ## Segments -/

/-- The segments of a name token's text: what stands between its dots, without a leading hash. -/
def segmentsOf : Text → List Text
  | '#' :: name => Text.splitAtChar '.' name
  | name => Text.splitAtChar '.' name

/-- Object and attribute of a token's text: its first two segments. -/
def referenceOf? (lexeme : Text) : Option (Text × Text) :=
  match segmentsOf lexeme with
  | object :: feature :: _ => some (object, feature)
  | _ => none

private theorem referenceOf?_eq_some_iff {lexeme object feature : Text} :
    referenceOf? lexeme = some (object, feature) ↔
      ∃ later, segmentsOf lexeme = object :: feature :: later := by
  unfold referenceOf?
  split
  · next first second later shape => simp [shape]
  · next other =>
    constructor
    · intro found
      simp at found
    · intro shaped
      obtain ⟨later, shape⟩ := shaped
      exact absurd shape (other object feature later)

theorem segmentsOf_of_head {c : Char} {rest : Text} (notHash : c ≠ '#') :
    segmentsOf (c :: rest) = Text.splitAtChar '.' (c :: rest) := by
  unfold segmentsOf
  split
  · next same => exact absurd (List.cons.inj same).1 notHash
  · rfl

theorem segmentsOf_structural {c : Char} {kind : TokenKind}
    (known : TokenKind.ofChar? c = some kind) : segmentsOf [c] = [[c]] := by
  obtain ⟨-, notHash, notDot, -⟩ := TokenKind.ofChar?_cases known
  rw [segmentsOf_of_head notHash]
  exact Text.splitAtChar_eq_singleton (by simpa using Ne.symm notDot)

section Runs

variable {name rest : Text} (isName : IsName name)
  (ends : ∀ c, rest.head? = some c → isNameChar c = false)

include isName ends

theorem IsName.takeWhile_append : (name ++ rest).takeWhile isNameChar = name := by
  rw [Text.takeWhile_append_of_stops ends, List.takeWhile_eq_self_iff.mpr isName.2]

theorem IsName.dropWhile_append : (name ++ rest).dropWhile isNameChar = rest := by
  rw [List.dropWhile_append_of_pos isName.2]
  cases rest with
  | nil => rfl
  | cons c later => simp [ends c rfl]

end Runs

theorem dot_ends (rest : Text) : ∀ c, ('.' :: rest).head? = some c → isNameChar c = false := by
  intro c same
  obtain rfl : '.' = c := by simpa using same
  exact isNameChar_dot

namespace IsDotted

variable {name rest : Text}

theorem segmentsOf_eq (dotted : IsDotted name) : segmentsOf name = Text.splitAtChar '.' name := by
  obtain ⟨c, later, rfl, belongs⟩ := dotted.exists_cons
  exact segmentsOf_of_head (ne_of_isNameChar belongs isNameChar_hash)

/-- The first segment of a dotted name is the run that it starts with. -/
theorem exists_splitAtChar (dotted : IsDotted name) (ends : NameEnds rest) :
    ∃ others, Text.splitAtChar '.' name = (name ++ rest).takeWhile isNameChar :: others := by
  cases dotted with
  | run isName =>
      refine ⟨[], ?_⟩
      rw [Text.splitAtChar_eq_singleton isName.plain.1, isName.takeWhile_append ends.1]
  | @dot first later isName dotted =>
      refine ⟨Text.splitAtChar '.' later, ?_⟩
      have run : (first ++ '.' :: later ++ rest).takeWhile isNameChar = first := by
        rw [List.append_assoc]
        exact isName.takeWhile_append (dot_ends (later ++ rest))
      rw [Text.splitAtChar_append, Text.splitAtChar_eq_singleton isName.plain.1, run]
      rfl

end IsDotted

/-! ## The scan for references -/

private theorem leadingReference?_of_head {text : Text}
    (other : ∀ c, text.head? = some c → isNameChar c = false) : leadingReference? text = none := by
  have vacant : text.takeWhile isNameChar = [] := by
    cases text with
    | nil => rfl
    | cons c rest => simp [other c rfl]
  simp only [leadingReference?, vacant]
  split
  · rfl
  · rfl

/-- A name of one segment is no reference. -/
theorem leadingReference?_of_nameEnds {name rest : Text} (isName : IsName name)
    (ends : NameEnds rest) : leadingReference? (name ++ rest) = none := by
  simp only [leadingReference?, isName.dropWhile_append ends.1]
  split
  · next later =>
    have vacant : later.takeWhile isNameChar = [] := by
      cases later with
      | nil => rfl
      | cons c others => simp [ends.2 c others rfl]
    simp [vacant]
  · rfl

private theorem leadingReference?_of_dot {name later rest : Text} (isName : IsName name)
    (dotted : IsDotted later) (ends : NameEnds rest) :
    leadingReference? (name ++ '.' :: (later ++ rest)) =
      some ((name, (later ++ rest).takeWhile isNameChar), (name ++ '.' :: later).length) := by
  have object := isName.takeWhile_append (dot_ends (later ++ rest))
  have passed := isName.dropWhile_append (dot_ends (later ++ rest))
  have whole : dottedName (name ++ '.' :: (later ++ rest)) = name ++ '.' :: later := by
    have munched := (IsDotted.dot isName dotted).dottedName_append ends
    rwa [List.append_assoc, List.cons_append] at munched
  have feature : (later ++ rest).takeWhile isNameChar ≠ [] := by
    obtain ⟨c, others, rfl, belongs⟩ := dotted.exists_cons
    simp [belongs]
  simp only [leadingReference?, object, passed, whole]
  rw [if_neg]
  simp [isName.1, feature]

/-- The references of a text whose first character has a given offset. -/
def referencesFrom (offset : Nat) (text : Text) : List (Text × Text) :=
  (text.occurrencesFrom leadingReference? offset 0).map Prod.snd

theorem referencesFrom_of_none {c : Char} {rest : Text}
    (none : leadingReference? (c :: rest) = none) (offset : Nat) :
    referencesFrom offset (c :: rest) = referencesFrom (offset + 1) rest := by
  rw [referencesFrom, Text.occurrencesFrom_of_none none, referencesFrom]

private theorem referencesFrom_other {c : Char} (other : isNameChar c = false) (rest : Text)
    (offset : Nat) : referencesFrom offset (c :: rest) = referencesFrom (offset + 1) rest := by
  apply referencesFrom_of_none
  apply leadingReference?_of_head
  intro d same
  obtain rfl := Option.some.inj same
  exact other

private theorem referencesFrom_run {name rest : Text} (named : ∀ c ∈ name, isNameChar c)
    (ends : NameEnds rest) (offset : Nat) :
    referencesFrom offset (name ++ rest) = referencesFrom (offset + name.length) rest := by
  -- Nothing matches at any character of the run, as what is left of it is a name that ends there.
  induction name generalizing offset with
  | nil => rfl
  | cons c name inductionHypothesis =>
      have none := leadingReference?_of_nameEnds ⟨List.cons_ne_nil c name, named⟩ ends
      rw [List.cons_append] at none ⊢
      rw [referencesFrom_of_none none,
        inductionHypothesis fun d member => named d (List.mem_cons_of_mem c member),
        List.length_cons, Nat.add_assoc, Nat.add_comm 1]

private theorem referencesFrom_dotted {name rest : Text} (dotted : IsDotted name)
    (ends : NameEnds rest) (offset : Nat) :
    referencesFrom offset (name ++ rest) =
      (referenceOf? name).toList ++ referencesFrom (offset + name.length) rest := by
  rw [referenceOf?, dotted.segmentsOf_eq]
  cases dotted with
  | run isName =>
      rw [Text.splitAtChar_eq_singleton isName.plain.1, referencesFrom_run isName.2 ends]
      rfl
  | @dot first later isName dotted =>
      obtain ⟨others, second⟩ := dotted.exists_splitAtChar ends
      have leads := leadingReference?_of_dot isName dotted ends
      rw [← List.cons_append, ← List.append_assoc] at leads
      rw [Text.splitAtChar_append, Text.splitAtChar_eq_singleton isName.plain.1, second,
        referencesFrom, Text.occurrencesFrom_of_some leads (by simp), referencesFrom]
      rfl

theorem Lexes.referencesFrom_eq {offset : Nat} {text : Text} {tokens : List Token}
    (lexes : Lexes offset text tokens) :
    referencesFrom offset text = tokens.filterMap fun token => referenceOf? token.text := by
  induction lexes with
  | nil => rfl
  | gap none later inductionHypothesis =>
      rw [referencesFrom_other (leadingToken?_eq_none none).1, inductionHypothesis]
  | @token offset kind lexeme rest tokens shape later inductionHypothesis =>
      have split : ((⟨kind, lexeme, offset⟩ :: tokens : List Token).filterMap
          fun token => referenceOf? token.text) =
            (referenceOf? lexeme).toList ++ referencesFrom (offset + lexeme.length) rest := by
        rw [inductionHypothesis, List.filterMap_cons]
        cases referenceOf? lexeme <;> rfl
      rw [split]
      cases shape with
      | identifier dotted ends => exact referencesFrom_dotted dotted ends offset
      | @tag name dotted ends =>
          rw [List.cons_append, referencesFrom_other isNameChar_hash,
            referencesFrom_dotted dotted ends, List.length_cons, Nat.add_assoc, Nat.add_comm 1,
            referenceOf?, referenceOf?, dotted.segmentsOf_eq]
          rfl
      | @structural c kind known =>
          rw [List.singleton_append, referencesFrom_other (TokenKind.ofChar?_cases known).1,
            referenceOf?, segmentsOf_structural known]
          rfl

/-- The dotted references of a text are those that its tokens make. -/
theorem dottedReferences_eq (text : Text) :
    dottedReferences text = (tokenize text).filterMap fun token => referenceOf? token.text :=
  (lexes_tokensFrom 0 text).referencesFrom_eq

theorem mem_dottedReferences_iff {text object feature : Text} :
    (object, feature) ∈ dottedReferences text ↔
      ∃ token ∈ tokenize text, ∃ later, segmentsOf token.text = object :: feature :: later := by
  rw [dottedReferences_eq, List.mem_filterMap]
  simp only [referenceOf?_eq_some_iff]

/-! ## Texts without comments -/

private theorem commentStartAfter_of_clear {line : Text} (clear : ';' ∉ line)
    (previous : Option Char) :
    commentStartAfter previous line = none := by
  induction line generalizing previous with
  | nil => rfl
  | cons c rest inductionHypothesis =>
      obtain ⟨different, restClear⟩ := not_or.mp (fun held => clear (List.mem_cons.mpr held))
      rw [commentStartAfter, if_neg (by simp [Ne.symm different]), inductionHypothesis restClear]
      rfl

theorem tokenizeCode_of_clear {text : Text} (clear : ';' ∉ text) :
    tokenizeCode text = tokenize text := by
  have kept : (Text.lines text).map blankLineComment = Text.lines text := by
    rw [List.map_congr_left (g := id), List.map_id]
    intro line member
    have clearLine : ';' ∉ line := fun inside => clear (Text.mem_of_mem_lines member inside)
    rw [blankLineComment, commentStart?, commentStartAfter_of_clear clearLine]
    rfl
  rw [tokenizeCode, blankComments, kept, Text.joinLines_lines]

end GrammarLens
