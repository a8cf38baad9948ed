import GrammarLens.Attributes
import GrammarLens.Proofs.Occurrences
import Mathlib.Data.List.TakeWhile

/-!
Contract: the shape of the names that extraction takes from a text.

Owns:
- names: texts of name characters that are not empty;
- the base name of a name token, the parts of a dotted reference and the heads of a
  bracket's segments are names.

Does not own: which names a text has.
-/

namespace GrammarLens

/-! ## Names -/

/-- A text of name characters that is not empty. -/
def IsName (text : Text) : Prop := text ≠ [] ∧ ∀ c ∈ text, isNameChar c

instance (text : Text) : Decidable (IsName text) :=
  @instDecidableAnd _ _ inferInstance (List.decidableBAll _ text)

theorem isNameChar_dot : isNameChar '.' = false := by decide

theorem isNameChar_hash : isNameChar '#' = false := by decide

/-- A name holds neither a dot nor a hash. -/
theorem IsName.plain {text : Text} (name : IsName text) : '.' ∉ text ∧ '#' ∉ text := by
  constructor
  · intro member
    simpa [isNameChar_dot] using name.2 '.' member
  · intro member
    simpa [isNameChar_hash] using name.2 '#' member

theorem isName_takeWhile {text : Text} (occupied : text.takeWhile isNameChar ≠ []) :
    IsName (text.takeWhile isNameChar) :=
  ⟨occupied, fun _ member => List.mem_takeWhile_imp member⟩

/-- The rest of a dotted name holds name characters and dots only. -/
theorem mem_dottedRest {text : Text} {c : Char} (member : c ∈ dottedRest text) :
    isNameChar c ∨ c = '.' := by
  induction text with
  | nil => simp [dottedRest] at member
  | cons first rest inductionHypothesis =>
      rw [dottedRest] at member
      split at member
      · next belongs =>
        rcases List.mem_cons.mp member with rfl | later
        · exact .inl belongs
        · exact inductionHypothesis later
      · split at member
        · next dotted =>
          rcases List.mem_cons.mp member with rfl | later
          · simp only [Bool.and_eq_true, decide_eq_true_eq] at dotted
            exact .inr dotted.1
          · exact inductionHypothesis later
        · simp at member

private theorem mem_dottedName {text : Text} {c : Char} (member : c ∈ dottedName text) :
    isNameChar c ∨ c = '.' := by
  rw [dottedName] at member
  split at member
  · exact mem_dottedRest member
  · simp at member

/-- The first segment of a dotted name is a name. -/
theorem isName_firstSegment {text : Text} (starts : text.head?.any isNameChar) :
    IsName ((dottedName text).takeWhile (· != '.')) := by
  cases text with
  | nil => simp at starts
  | cons first rest =>
      have belongs : isNameChar first := by simpa using starts
      have notDot : first ≠ '.' := by
        rintro rfl
        simp [isNameChar_dot] at belongs
      have shape : dottedName (first :: rest) = first :: dottedRest rest := by
        rw [dottedName, if_pos starts, dottedRest, if_pos belongs]
      constructor
      · simp [shape, notDot]
      · intro c member
        have plain : c ≠ '.' := by simpa using List.mem_takeWhile_imp member
        have inside : c ∈ dottedName (first :: rest) := (List.takeWhile_sublist _).subset member
        exact (mem_dottedName inside).resolve_right plain

/-! ## Tokens -/

/-- The base name of a name token is a name. -/
theorem isName_baseName_of_leadingToken? {text lexeme : Text} {kind : TokenKind}
    (leads : leadingToken? text = some (kind, lexeme))
    (named : kind = .identifier ∨ kind = .tag) : IsName (baseName lexeme) := by
  cases text with
  | nil => simp [leadingToken?] at leads
  | cons first rest =>
      rw [leadingToken?] at leads
      split at leads
      · next belongs =>
        obtain ⟨-, rfl⟩ := Prod.mk.inj (Option.some.inj leads)
        have notHash : first ≠ '#' := by
          rintro rfl
          simp [isNameChar_hash] at belongs
        have starts : (first :: rest).head?.any isNameChar := by simpa using belongs
        have shape : dottedName (first :: rest) = first :: dottedRest rest := by
          rw [dottedName, if_pos starts, dottedRest, if_pos belongs]
        have segment := isName_firstSegment starts
        have base : baseName (dottedName (first :: rest)) =
            (dottedName (first :: rest)).takeWhile (· != '.') := by
          rw [shape]
          unfold baseName
          split
          · next equal => exact absurd (List.cons.inj equal).1 notHash
          · rfl
        rwa [base]
      · split at leads
        · next tagged =>
          obtain ⟨-, rfl⟩ := Prod.mk.inj (Option.some.inj leads)
          simp only [Bool.and_eq_true, decide_eq_true_eq] at tagged
          obtain ⟨rfl, starts⟩ := tagged
          exact isName_firstSegment starts
        · -- A structural character is neither an identifier nor a tag.
          obtain ⟨structural, known, same⟩ := Option.map_eq_some_iff.mp leads
          obtain ⟨rfl, -⟩ := Prod.mk.inj same
          unfold TokenKind.ofChar? at known
          rcases named with rfl | rfl
          · split at known <;> simp at known
          · split at known <;> simp at known

private theorem isName_baseName_of_mem_tokenize {text : Text} {token : Token}
    (member : token ∈ tokenize text) (named : token.kind = .identifier ∨ token.kind = .tag) :
    IsName (baseName token.text) := by
  obtain ⟨⟨position, kind, lexeme⟩, occurs, rfl⟩ := List.mem_map.mp member
  obtain ⟨_, suffix, length, _, _, matched⟩ := Text.match_of_mem_occurrences occurs
  obtain ⟨found, leads, same⟩ := Option.map_eq_some_iff.mp matched
  obtain ⟨rfl, -⟩ := Prod.mk.inj same
  exact isName_baseName_of_leadingToken? leads named

/-! ## Dotted references and bracketed literals -/

theorem isName_of_mem_dottedReferences {text : Text} {reference : Text × Text}
    (member : reference ∈ dottedReferences text) : IsName reference.1 ∧ IsName reference.2 := by
  obtain ⟨⟨position, found⟩, occurs, rfl⟩ := List.mem_map.mp member
  obtain ⟨_, suffix, length, _, _, matched⟩ := Text.match_of_mem_occurrences occurs
  simp only [leadingReference?] at matched
  split at matched
  · next rest _ =>
    split at matched
    · simp at matched
    · next occupied =>
      simp only [Bool.or_eq_true, List.isEmpty_iff, not_or] at occupied
      obtain ⟨same, -⟩ := Prod.mk.inj (Option.some.inj matched)
      rw [← same]
      exact ⟨isName_takeWhile occupied.1, isName_takeWhile occupied.2⟩
  · simp at matched

/-- The head of a segment is the base name of a name token. -/
theorem mem_segmentHeads {nested : Nat} {expecting : Bool} {tokens : List Token} {head : Text}
    (member : head ∈ segmentHeads nested expecting tokens) :
    ∃ token ∈ tokens, (token.kind = .identifier ∨ token.kind = .tag) ∧
      head = baseName token.text := by
  induction tokens generalizing nested expecting with
  | nil => simp [segmentHeads] at member
  | cons token rest inductionHypothesis =>
      have later : ∀ {depth : Nat} {awaiting : Bool}, head ∈ segmentHeads depth awaiting rest →
          ∃ other ∈ token :: rest, (other.kind = .identifier ∨ other.kind = .tag) ∧
            head = baseName other.text := by
        intro depth awaiting inRest
        obtain ⟨other, present, shape⟩ := inductionHypothesis inRest
        exact ⟨other, List.mem_cons_of_mem _ present, shape⟩
      have named : (token.kind = .identifier ∨ token.kind = .tag) →
          head ∈ (if nested = 0 && expecting then
            baseName token.text :: segmentHeads nested false rest
            else segmentHeads nested expecting rest) →
          ∃ other ∈ token :: rest, (other.kind = .identifier ∨ other.kind = .tag) ∧
            head = baseName other.text := by
        intro kind inBranch
        split at inBranch
        · rcases List.mem_cons.mp inBranch with rfl | inRest
          · exact ⟨token, List.mem_cons_self, kind, rfl⟩
          · exact later inRest
        · exact later inBranch
      rw [segmentHeads] at member
      cases kind : token.kind with
      | leftBracket => exact later (by simpa [kind] using member)
      | rightBracket =>
          simp only [kind] at member
          split at member
          · simp at member
          · exact later member
      | comma => exact later (by simpa [kind] using member)
      | identifier => exact named (.inl kind) (by simpa only [kind] using member)
      | tag => exact named (.inr kind) (by simpa only [kind] using member)
      | leftAngle => exact later (by simpa [kind] using member)
      | rightAngle => exact later (by simpa [kind] using member)
      | ampersand => exact later (by simpa [kind] using member)

private theorem mem_bracketedAfter {previous : Option Token} {tokens : List Token}
    {pair : Text × Text} (member : pair ∈ bracketedAfter previous tokens) :
    ∃ token ∈ tokens, (token.kind = .identifier ∨ token.kind = .tag) ∧
      pair.2 = baseName token.text := by
  induction tokens generalizing previous with
  | nil => simp [bracketedAfter] at member
  | cons token rest inductionHypothesis =>
      unfold bracketedAfter at member
      rcases List.mem_append.mp member with here | inRest
      · split at here
        · obtain ⟨head, heads, rfl⟩ := List.mem_map.mp here
          obtain ⟨other, present, shape⟩ := mem_segmentHeads heads
          exact ⟨other, List.mem_cons_of_mem _ present, shape⟩
        · simp at here
      · obtain ⟨other, present, shape⟩ := inductionHypothesis inRest
        exact ⟨other, List.mem_cons_of_mem _ present, shape⟩

theorem isName_of_mem_bracketedAttributes {text : Text} {pair : Text × Text}
    (member : pair ∈ bracketedAttributes (tokenize text)) : IsName pair.2 := by
  obtain ⟨token, present, named, shape⟩ := mem_bracketedAfter member
  rw [shape]
  exact isName_baseName_of_mem_tokenize present named

end GrammarLens
