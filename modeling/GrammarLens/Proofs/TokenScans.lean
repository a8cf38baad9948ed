import GrammarLens.Proofs.AttributeUnion
import GrammarLens.Proofs.DottedReferences
import GrammarLens.Tag

/-!
Contract: what the scans for dotted references and for tags find, read off the tokens of a text.

Owns:
- the attribute map of the dotted references, by the segments of the name tokens;
- the mark of a token: the tag characters behind the hash of a tag;
- the tags of a text: the marks of its tokens, each once, in the order of first occurrence.

Does not own: what an index makes of references and tags.

## Why the scan for tags meets every hash that the tokenizer sees

A tag may end inside its token, at a dot or at a star, and a hash before a star opens a token and no
tag. In either case what is left of the token holds no hash, so nothing matches until the token
ends, and the hash of the next one is met again.
-/

namespace GrammarLens

/-! ## References -/

/-- A token with a second segment is a name. -/
theorem IsLexeme.isName_of_segments {rest lexeme first second : Text} {later : List Text}
    {kind : TokenKind} (shape : IsLexeme rest kind lexeme)
    (segments : segmentsOf lexeme = first :: second :: later) :
    kind = .identifier ∨ kind = .tag := by
  cases shape with
  | identifier dotted ends => exact .inl rfl
  | tag dotted ends => exact .inr rfl
  | @structural c kind known =>
      rw [segmentsOf_structural known] at segments
      simp at segments

theorem Token.isName_of_segments {text first second : Text} {later : List Text} {token : Token}
    (member : token ∈ tokenize text) (segments : segmentsOf token.text = first :: second :: later) :
    token.isName := by
  obtain ⟨before, rest, -, -, shape, -⟩ := (isTokenization_tokenize text).stands token member
  rw [Token.isName, Bool.or_eq_true, decide_eq_true_eq, decide_eq_true_eq]
  exact shape.isName_of_segments segments

/-- The dotted references of a text give a feature to an object exactly if these are the first two
segments of a name token, and they record no other object. -/
theorem dottedMap_segments (text : Text) :
    (∀ object feature, feature ∈ AttributeMap.attributes (dottedMap text) object ↔
      ∃ token ∈ tokenize text, token.isName ∧
        ∃ later, segmentsOf token.text = object :: feature :: later) ∧
    ∀ object, object ∈ (dottedMap text).keys ↔
      ∃ token ∈ tokenize text, token.isName ∧
        ∃ feature later, segmentsOf token.text = object :: feature :: later := by
  have given : ∀ object feature, feature ∈ AttributeMap.attributes (dottedMap text) object ↔
      ∃ token ∈ tokenize text, token.isName ∧
        ∃ later, segmentsOf token.text = object :: feature :: later := by
    intro object feature
    rw [mem_attributes_dottedMap_iff, mem_dottedReferences_iff]
    constructor
    · intro shown
      obtain ⟨token, member, later, segments⟩ := shown
      exact ⟨token, member, token.isName_of_segments member segments, later, segments⟩
    · intro shown
      obtain ⟨token, member, -, later, segments⟩ := shown
      exact ⟨token, member, later, segments⟩
  refine ⟨given, ?_⟩
  intro object
  have proper : AttributeMap.IsProper (dottedMap text) :=
    AttributeMap.isProper_empty.addPairs (dottedReferences text)
  rw [proper.mem_keys_iff]
  constructor
  · intro known
    obtain ⟨feature, member⟩ := known
    obtain ⟨token, occurs, named, later, segments⟩ := (given object feature).mp member
    exact ⟨token, occurs, named, feature, later, segments⟩
  · intro shown
    obtain ⟨token, occurs, named, feature, later, segments⟩ := shown
    exact ⟨feature, (given object feature).mpr ⟨token, occurs, named, later, segments⟩⟩

-- The hash of a tag is no part of its object, and dots in a row or at the end join nothing.
example : dottedReferences "#A.b.c ;x..y.z w.".toList = [(['A'], ['b']), (['y'], ['z'])] := by
  decide

/-! ## Marks -/

/-- The longest start of a text that is made of tag characters. -/
structure IsLongestTag (name tag : Text) : Prop where
  starts : tag <+: name
  tagged : ∀ c ∈ tag, isTagChar c
  longest : ∀ other, other <+: name → (∀ c ∈ other, isTagChar c) → other.length ≤ tag.length

private theorem isLongestTag_takeWhile (name : Text) :
    IsLongestTag name (name.takeWhile isTagChar) where
  starts := List.takeWhile_prefix isTagChar
  tagged := fun _ => List.mem_takeWhile_imp
  longest := by
    intro other starts tagged
    obtain ⟨rest, rfl⟩ := starts
    rw [List.takeWhile_append_of_pos tagged, List.length_append]
    exact Nat.le_add_right _ _

private theorem isLongestTag_iff {name tag : Text} :
    IsLongestTag name tag ↔ name.takeWhile isTagChar = tag := by
  constructor
  · intro held
    have taken := isLongestTag_takeWhile name
    have notLonger := held.longest _ taken.starts taken.tagged
    have notShorter := taken.longest _ held.starts held.tagged
    exact (List.prefix_of_prefix_length_le taken.starts held.starts notLonger).eq_of_length
      (Nat.le_antisymm notLonger notShorter)
  · intro same
    rw [← same]
    exact isLongestTag_takeWhile name

/-- The tag characters that a text starts with, if there are any. -/
def tagStart? (name : Text) : Option Text :=
  let tag := name.takeWhile isTagChar
  if tag.isEmpty then none else some tag

theorem tagStart?_eq_some_iff {name tag : Text} :
    tagStart? name = some tag ↔ tag ≠ [] ∧ IsLongestTag name tag := by
  rw [isLongestTag_iff, tagStart?]
  simp only [List.isEmpty_iff, Option.ite_none_left_eq_some, Option.some.injEq]
  constructor
  · intro found
    exact ⟨found.2 ▸ found.1, found.2⟩
  · intro held
    exact ⟨held.2.symm ▸ held.1, held.2⟩

theorem tagStart?_eq_none_iff {name : Text} :
    tagStart? name = none ↔ ∀ c, name.head? = some c → isTagChar c = false := by
  cases name with
  | nil => simp [tagStart?]
  | cons c rest =>
      cases belongs : isTagChar c with
      | false => simp [tagStart?, belongs]
      | true => simp [tagStart?, belongs]

private theorem tagStart?_append {name rest : Text}
    (ends : ∀ c, rest.head? = some c → isTagChar c = false) :
    tagStart? (name ++ rest) = tagStart? name := by
  rw [tagStart?, tagStart?, Text.takeWhile_append_of_stops ends]

/-- The mark of a token: the tag characters behind the hash of a tag, if there are any. -/
def Token.mark? (token : Token) : Option Text :=
  match token.kind, token.text with
  | .tag, '#' :: name => tagStart? name
  | _, _ => none

/-- A token marks a tag with the longest start of tag characters behind its hash. -/
structure Token.Marks (token : Token) (tag : Text) : Prop where
  kind : token.kind = .tag
  occupied : tag ≠ []
  longest : ∃ name, token.text = '#' :: name ∧ IsLongestTag name tag

theorem Token.mark?_eq_some_iff {token : Token} {tag : Text} :
    token.mark? = some tag ↔ token.Marks tag := by
  unfold Token.mark?
  split
  · next name kind shape =>
    rw [tagStart?_eq_some_iff]
    constructor
    · intro found
      exact ⟨kind, found.1, name, shape, found.2⟩
    · intro marks
      obtain ⟨other, otherShape, longest⟩ := marks.longest
      obtain rfl : name = other := (List.cons.inj (shape.symm.trans otherShape)).2
      exact ⟨marks.occupied, longest⟩
  · next other =>
    constructor
    · intro found
      simp at found
    · intro marks
      obtain ⟨name, shape, -⟩ := marks.longest
      exact absurd shape (other name marks.kind)

private theorem not_isTagChar_of_not_isNameChar {c : Char} (other : isNameChar c = false) :
    isTagChar c = false := by
  by_contra tagged
  have named := isNameChar_of_isTagChar (by simpa using tagged)
  simp [other] at named

/-- A name character that is no tag character is the star. -/
theorem isTagChar_eq_false_iff {c : Char} (named : isNameChar c) :
    isTagChar c = false ↔ c = '*' := by
  have classes : isNameChar c = (isTagChar c || c == '*') := rfl
  rw [classes] at named
  constructor
  · intro other
    simpa [other] using named
  · intro star
    rw [star]
    decide

/-- A tag that marks nothing starts with a star behind its hash. -/
theorem Token.mark?_eq_none_iff {text : Text} {token : Token} (member : token ∈ tokenize text)
    (kind : token.kind = .tag) : token.mark? = none ↔ ∃ rest, token.text = '#' :: '*' :: rest := by
  obtain ⟨before, behind, -, -, shape, -⟩ := (isTokenization_tokenize text).stands token member
  obtain ⟨tokenKind, lexeme, offset⟩ := token
  obtain rfl : tokenKind = .tag := kind
  cases shape with
  | @tag name dotted ends =>
      obtain ⟨c, rest, rfl, named⟩ := dotted.exists_cons
      show tagStart? (c :: rest) = none ↔ _
      rw [tagStart?_eq_none_iff]
      simp [isTagChar_eq_false_iff named]
  | structural known => exact absurd rfl (TokenKind.ofChar?_cases known).2.2.2.2

/-! ## The scan for tags -/

/-- The tags of a text whose first character has a given offset, with repetitions. -/
def tagsFrom (offset : Nat) (text : Text) : List Text :=
  (text.occurrencesFrom leadingTag? offset 0).map Prod.snd

theorem leadingTag?_hash (rest : Text) :
    leadingTag? ('#' :: rest) = (tagStart? rest).map fun tag => (tag, tag.length + 1) := by
  rw [leadingTag?, tagStart?]
  split
  · rfl
  · rfl

theorem leadingTag?_other {c : Char} (other : c ≠ '#') (rest : Text) :
    leadingTag? (c :: rest) = none := by
  unfold leadingTag?
  split
  · next same => exact absurd (List.cons.inj same).1 other
  · rfl

theorem tagsFrom_of_none {c : Char} {rest : Text} (none : leadingTag? (c :: rest) = none)
    (offset : Nat) : tagsFrom offset (c :: rest) = tagsFrom (offset + 1) rest := by
  rw [tagsFrom, Text.occurrencesFrom_of_none none, tagsFrom]

theorem tagsFrom_append {passed : Text} (free : '#' ∉ passed) (rest : Text) (offset : Nat) :
    tagsFrom offset (passed ++ rest) = tagsFrom (offset + passed.length) rest := by
  induction passed generalizing offset with
  | nil => rfl
  | cons c passed inductionHypothesis =>
      have different : c ≠ '#' := fun same => free (same ▸ List.mem_cons_self)
      have freeBehind : '#' ∉ passed := fun inside => free (List.mem_cons_of_mem c inside)
      rw [List.cons_append, tagsFrom_of_none (leadingTag?_other different _),
        inductionHypothesis freeBehind, List.length_cons, Nat.add_assoc, Nat.add_comm 1]

private theorem tagsFrom_hash {name rest : Text} (free : '#' ∉ name)
    (ends : ∀ c, rest.head? = some c → isTagChar c = false) (offset : Nat) :
    tagsFrom offset ('#' :: (name ++ rest)) =
      (tagStart? name).toList ++ tagsFrom (offset + (name.length + 1)) rest := by
  have leads := leadingTag?_hash (name ++ rest)
  rw [tagStart?_append ends] at leads
  cases marked : tagStart? name with
  | none =>
      rw [marked] at leads
      rw [tagsFrom_of_none leads, tagsFrom_append free, Nat.add_assoc, Nat.add_comm 1]
      rfl
  | some tag =>
      rw [marked] at leads
      obtain ⟨later, rfl⟩ := (tagStart?_eq_some_iff.mp marked).2.starts
      have freeBehind : '#' ∉ later := fun inside => free (List.mem_append_right tag inside)
      rw [List.append_assoc, ← List.cons_append] at leads ⊢
      rw [tagsFrom, Text.occurrencesFrom_of_some leads (List.cons_ne_nil _ _), List.map_cons]
      show tag :: tagsFrom (offset + (tag.length + 1)) (later ++ rest) = _
      rw [tagsFrom_append freeBehind, List.length_append]
      show _ = tag :: tagsFrom _ rest
      congr 2
      omega

theorem IsDotted.hash_not_mem {name : Text} (dotted : IsDotted name) : '#' ∉ name := by
  intro inside
  rcases dotted.mem inside with belongs | same
  · exact ne_of_isNameChar belongs isNameChar_hash rfl
  · exact absurd same (by decide)

theorem Lexes.tagsFrom_eq {offset : Nat} {text : Text} {tokens : List Token}
    (lexes : Lexes offset text tokens) : tagsFrom offset text = tokens.filterMap Token.mark? := by
  induction lexes with
  | nil => rfl
  | @gap offset c rest tokens none later inductionHypothesis =>
      have untagged : leadingTag? (c :: rest) = .none := by
        by_cases hash : c = '#'
        · have vacant : tagStart? rest = .none := by
            rw [tagStart?_eq_none_iff]
            intro d first
            exact not_isTagChar_of_not_isNameChar ((leadingToken?_eq_none none).2.2 hash d first)
          rw [hash, leadingTag?_hash, vacant]
          rfl
        · exact leadingTag?_other hash rest
      rw [tagsFrom_of_none untagged, inductionHypothesis]
  | @token offset kind lexeme rest tokens shape later inductionHypothesis =>
      cases shape with
      | identifier dotted ends =>
          rw [tagsFrom_append dotted.hash_not_mem, inductionHypothesis]
          rfl
      | @tag name dotted ends =>
          have stops : ∀ c, rest.head? = some c → isTagChar c = false := by
            intro c first
            exact not_isTagChar_of_not_isNameChar (ends.1 c first)
          have marked : Token.mark? ⟨.tag, '#' :: name, offset⟩ = tagStart? name := rfl
          rw [List.cons_append, tagsFrom_hash dotted.hash_not_mem stops, List.filterMap_cons,
            marked, ← inductionHypothesis]
          cases tagStart? name with
          | none => rfl
          | some tag => rfl
      | @structural c kind known =>
          obtain ⟨-, notHash, -, -, notTag⟩ := TokenKind.ofChar?_cases known
          have unmarked : Token.mark? ⟨kind, [c], offset⟩ = none := by
            rw [Option.eq_none_iff_forall_ne_some]
            intro tag marked
            exact notTag (Token.mark?_eq_some_iff.mp marked).kind
          rw [List.filterMap_cons_none unmarked, ← inductionHypothesis]
          exact tagsFrom_append (by simpa using Ne.symm notHash) rest offset

/-- The tags of a text are the marks of its tokens, each once, in the order in which they first
occur. The mark of a tag token is the longest start of tag characters behind its hash, and the only
tag tokens without one are those with a star there. -/
theorem extractTags_marks (text : Text) :
    (∀ tags, tags = extractTags text ↔
      ListsFirst ((tokenize text).filterMap Token.mark?) tags) ∧
    ∀ token ∈ tokenize text,
      (∀ tag, token.mark? = some tag ↔ token.Marks tag) ∧
      (token.kind = .tag → (token.mark? = none ↔ ∃ rest, token.text = '#' :: '*' :: rest)) := by
  have scanned : (text.occurrences leadingTag?).map Prod.snd =
      (tokenize text).filterMap Token.mark? := (lexes_tokensFrom 0 text).tagsFrom_eq
  have lists : ListsFirst ((tokenize text).filterMap Token.mark?) (extractTags text) := by
    rw [extractTags, scanned]
    exact listsFirst_distinct _
  refine ⟨?_, ?_⟩
  · intro tags
    constructor
    · intro same
      rw [same]
      exact lists
    · intro listed
      exact listed.unique lists
  · intro token member
    exact ⟨fun _ => Token.mark?_eq_some_iff, Token.mark?_eq_none_iff member⟩

/-- A tag ends before a dot or a star, and a hash before a hash or a star marks nothing. -/
theorem extractTags_marks_starredTag :
    let text : Text := "#b.c ;#*d ##a*b #b\n#a".toList
    let plain : Token := ⟨.tag, "#b.c".toList, 0⟩
    let starred : Token := ⟨.tag, "#*d".toList, 6⟩
    ListsFirst ((tokenize text).filterMap Token.mark?) [['b'], ['a']] ∧
      plain ∈ tokenize text ∧ plain.Marks ['b'] ∧
      starred ∈ tokenize text ∧ starred.mark? = none := by
  intro text plain starred
  have listed := ((extractTags_marks text).1 [['b'], ['a']]).mp (by decide)
  have member : plain ∈ tokenize text := by decide
  have starredMember : starred ∈ tokenize text := by decide
  have marks := (((extractTags_marks text).2 plain member).1 ['b']).mp (by decide)
  have unmarked := (((extractTags_marks text).2 starred starredMember).2 rfl).mpr ⟨['d'], rfl⟩
  exact ⟨listed, member, marks, starredMember, unmarked⟩

end GrammarLens
