import GrammarLens.Proofs.AttributeCompletion
import GrammarLens.Proofs.DottedReferences

/-!
Contract: what a bracketed literal teaches, and what completion offers where the same bracket is
opened again.

Owns:
- the literal of an owner with one attribute: its tokens, its references and what it gives;
- the object that completion consults behind an owner and its bracket. It is the last segment of
  the owner and not the owner;
- the attribute is offered there if the owner is a plain name, if its own segments happen to give
  the attribute to the last one, or if another file does.

Does not own: brackets behind a type, and literals with more than one attribute.
-/

namespace GrammarLens

/-! ## Literals -/

/-- A literal that gives one attribute with a value to its owner. -/
def literalText (owner feature value : Text) : Text :=
  owner ++ " [ ".toList ++ feature ++ ' ' :: value ++ " ]".toList

/-- An owner with the bracket that it opens. -/
def openedText (owner : Text) : Text := owner ++ " [".toList

theorem nameEnds_blank (rest : Text) : NameEnds (' ' :: rest) := by
  constructor
  · intro c same
    obtain rfl : ' ' = c := by simpa using same
    decide
  · intro c later same
    simp at same

theorem IsLexeme.before_blank {rest lexeme : Text} {kind : TokenKind}
    (shape : IsLexeme rest kind lexeme) (later : Text) : IsLexeme (' ' :: later) kind lexeme := by
  cases shape with
  | identifier dotted ends => exact .identifier dotted (nameEnds_blank later)
  | tag dotted ends => exact .tag dotted (nameEnds_blank later)
  | structural known => exact .structural known

private theorem tokensFrom_blank (rest : Text) (offset : Nat) :
    tokensFrom offset (' ' :: rest) = tokensFrom (offset + 1) rest :=
  tokensFrom_gap rfl offset

theorem IsName.baseName_eq {name : Text} (isName : IsName name) : baseName name = name := by
  have whole : name.takeWhile (· != '.') = name := by
    rw [List.takeWhile_eq_self_iff]
    intro c member
    simpa using ne_of_isNameChar (isName.2 c member) isNameChar_dot
  unfold baseName
  split
  · exact absurd List.mem_cons_self isName.plain.2
  · exact whole

theorem IsName.segmentsOf_eq {name : Text} (isName : IsName name) : segmentsOf name = [name] := by
  rw [(IsDotted.run isName).segmentsOf_eq, Text.splitAtChar_eq_singleton isName.plain.1]

theorem IsName.clear {name : Text} (isName : IsName name) : ';' ∉ name := by
  intro member
  exact absurd (isName.2 _ member) (by decide)

theorem IsLexeme.clear {rest lexeme : Text} {kind : TokenKind} (shape : IsLexeme rest kind lexeme) :
    ';' ∉ lexeme := by
  have inName : ∀ {name : Text}, IsDotted name → ';' ∉ name := by
    intro name dotted member
    exact absurd (dotted.mem member) (by decide)
  cases shape with
  | identifier dotted ends => exact inName dotted
  | tag dotted ends => simp [inName dotted]
  | structural known =>
      intro member
      obtain rfl := List.mem_singleton.mp member
      simp [TokenKind.ofChar?] at known

section Literal

variable {rest owner feature value : Text} {kind : TokenKind} (shape : IsLexeme rest kind owner)
  (featureName : IsName feature) (valueName : IsName value)

include shape featureName valueName

theorem exists_tokenize_literalText :
    ∃ second third fourth fifth, tokenize (literalText owner feature value) =
      [⟨kind, owner, 0⟩, ⟨.leftBracket, ['['], second⟩, ⟨.identifier, feature, third⟩,
        ⟨.identifier, value, fourth⟩, ⟨.rightBracket, [']'], fifth⟩] := by
  have text : literalText owner feature value =
      owner ++ ' ' :: (['['] ++ ' ' :: (feature ++ ' ' :: (value ++ ' ' :: ([']'] ++ [])))) := by
    simp [literalText]
  have featureShape : IsLexeme (' ' :: (value ++ ' ' :: ([']'] ++ []))) .identifier feature :=
    .identifier (.run featureName) (nameEnds_blank _)
  have valueShape : IsLexeme (' ' :: ([']'] ++ [])) .identifier value :=
    .identifier (.run valueName) (nameEnds_blank _)
  change ∃ second third fourth fifth, tokensFrom 0 (literalText owner feature value) = _
  rw [text, tokensFrom_append (shape.before_blank _), tokensFrom_blank,
    tokensFrom_append (.structural rfl), tokensFrom_blank, tokensFrom_append featureShape,
    tokensFrom_blank, tokensFrom_append valueShape, tokensFrom_blank,
    tokensFrom_append (.structural rfl)]
  exact ⟨_, _, _, _, rfl⟩

theorem tokenizeCode_literalText :
    tokenizeCode (literalText owner feature value) =
      tokenize (literalText owner feature value) := by
  apply tokenizeCode_of_clear
  have clearFeature := featureName.clear
  have clearValue := valueName.clear
  simp [literalText, shape.clear, clearFeature, clearValue]

private theorem mem_dottedReferences_literalText {object other : Text} :
    (object, other) ∈ dottedReferences (literalText owner feature value) ↔
      ∃ later, segmentsOf owner = object :: other :: later := by
  obtain ⟨second, third, fourth, fifth, tokens⟩ :=
    exists_tokenize_literalText shape featureName valueName
  have opening : segmentsOf ['['] = [['[']] := rfl
  have closing : segmentsOf [']'] = [[']']] := rfl
  rw [mem_dottedReferences_iff, tokens]
  simp [opening, closing, featureName.segmentsOf_eq, valueName.segmentsOf_eq]

private theorem bracketedAttributes_literalText (named : kind = .identifier ∨ kind = .tag) :
    bracketedAttributes (tokenizeCode (literalText owner feature value)) = [(owner, feature)] := by
  obtain ⟨second, third, fourth, fifth, tokens⟩ :=
    exists_tokenize_literalText shape featureName valueName
  rw [tokenizeCode_literalText shape featureName valueName, tokens]
  cases named with
  | inl identifier =>
      subst identifier
      simp [bracketedAttributes, bracketedAfter, segmentHeads, featureName.baseName_eq]
  | inr tag =>
      subst tag
      simp [bracketedAttributes, bracketedAfter, segmentHeads, featureName.baseName_eq]

private theorem bracketOwner_literalText :
    bracketOwner (tokenizeCode (literalText owner feature value)) 1 = some owner := by
  obtain ⟨second, third, fourth, fifth, tokens⟩ :=
    exists_tokenize_literalText shape featureName valueName
  rw [tokenizeCode_literalText shape featureName valueName, tokens]
  rfl

/-- A literal gives its attribute to its owner. Whatever else it gives comes from the segments of
the owner. -/
theorem mem_attributes_literalText (named : kind = .identifier ∨ kind = .tag)
    {object other : Text} :
    other ∈ AttributeMap.attributes (extractAttributes (literalText owner feature value)) object ↔
      (∃ later, segmentsOf owner = object :: other :: later) ∨
        object = owner ∧ other = feature := by
  rw [mem_attributes_extractAttributes,
    mem_dottedReferences_literalText shape featureName valueName,
    bracketedAttributes_literalText shape featureName valueName named, List.mem_singleton,
    Prod.mk.injEq]

end Literal

/-! ## The object that completion consults -/

/-- The name that stands at the end of an owner. -/
def lastSegment (owner : Text) : Text := Text.trailing isNameChar owner

theorem openedText_eq (owner : Text) :
    openedText owner =
      Text.dropTrailing isNameChar owner ++ (lastSegment owner ++ [' '] ++ '[' :: []) := by
  rw [lastSegment, List.append_assoc, ← List.append_assoc, Text.dropTrailing_append_trailing]
  rfl

section Owner

variable {rest owner : Text} {kind : TokenKind} (shape : IsLexeme rest kind owner)
  (named : kind = .identifier ∨ kind = .tag)

include shape named

theorem isName_lastSegment : IsName (lastSegment owner) := by
  have ending : ∃ c, owner.getLast? = some c ∧ isNameChar c := by
    cases shape with
    | identifier dotted ends => exact dotted.exists_getLast?
    | tag dotted ends =>
        obtain ⟨c, last, belongs⟩ := dotted.exists_getLast?
        exact ⟨c, by rw [List.getLast?_cons, last]; rfl, belongs⟩
    | structural known =>
        obtain ⟨-, -, -, notIdentifier, notTag⟩ := TokenKind.ofChar?_cases known
        exact absurd named (not_or.mpr ⟨notIdentifier, notTag⟩)
  constructor
  · obtain ⟨c, last, belongs⟩ := ending
    obtain ⟨front, rfl⟩ := List.getLast?_eq_some_iff.mp last
    simp [lastSegment, Text.trailing, belongs]
  · intro c member
    exact Text.mem_trailing member

/-- The last segment is the whole owner for plain names only. -/
theorem lastSegment_eq_iff : lastSegment owner = owner ↔ IsName owner := by
  constructor
  · intro same
    rw [← same]
    exact isName_lastSegment shape named
  · intro isName
    exact Text.trailing_of_forall isName.2

private theorem trigger?_openedText :
    Completion.trigger? (openedText owner) = some (.bracket (lastSegment owner)) := by
  rw [openedText_eq, ← List.append_assoc, ← List.append_assoc]
  apply Completion.trigger?_bracket (fun c => Text.getLast?_dropTrailing)
    (isName_lastSegment shape named)
  · exact List.forall_mem_singleton.mpr (by decide)
  · simp

/-- Behind an owner and its bracket completion offers what is known of the owner's last segment. -/
theorem complete_openedText {settings : Settings} {offset : Int}
    (atEnd : (openedText owner).clampOffset offset = (openedText owner).length)
    (window : settings.completionWindow.start (openedText owner).length = .ok 0)
    (attributes : AttributeIndex) (tags : TagIndex) :
    Completion.complete settings attributes tags (openedText owner) offset =
      .ok (Completion.attributeItems (attributes.attributesFor (lastSegment owner)) true) := by
  have split : (openedText owner).take ((openedText owner).clampOffset offset) =
      Text.dropTrailing isNameChar owner ++ (lastSegment owner ++ [' '] ++ '[' :: []) := by
    rw [atEnd, List.take_length]
    exact openedText_eq owner
  have asks : Completion.Asks (lastSegment owner) [] (lastSegment owner ++ [' '] ++ '[' :: []) :=
    .bracket (List.forall_mem_singleton.mpr (by decide)) (by simp)
  rw [Completion.complete_of_asks split asks (isName_lastSegment shape named)
    (fun c => Text.getLast?_dropTrailing) (by rwa [atEnd]) (Nat.zero_le _) attributes tags]
  simp

end Owner

/-! ## After any run -/

namespace Workspace

open Completion

/-- What files give after an update: what the new text gives, and what the other files gave. -/
theorem gives_update_iff (settings : Settings) (operations : List Operation)
    (uri text object feature : Text) :
    Gives settings (operations ++ [.update uri text]) object feature ↔
      feature ∈ AttributeMap.attributes (extractAttributes text) object ∨
        ∃ other content, other ≠ uri ∧
          lastText? other (history settings operations) = some content ∧
          feature ∈ AttributeMap.attributes (extractAttributes content) object := by
  have extended : history settings (operations ++ [.update uri text]) =
      history settings operations ++ [.indexed uri text] := by
    simp [history, changesOf]
  unfold Gives
  rw [extended]
  simp only [lastText?_concat, Change.concerns, Change.text?, decide_eq_true_eq]
  constructor
  · rintro ⟨other, content, last, given⟩
    split at last
    · obtain rfl := Option.some.inj last
      exact .inl given
    · next different => exact .inr ⟨other, content, Ne.symm different, last, given⟩
  · rintro (given | ⟨other, content, different, last, given⟩)
    · exact ⟨uri, text, by simp, given⟩
    · exact ⟨other, content, by rw [if_neg (Ne.symm different), last], given⟩

/-- After a literal has been indexed its attribute is known of its owner, the token before the
bracket. Opening the bracket again asks for the last segment of the owner instead, so that the
attribute is offered for a plain name, and for another owner only by accident. -/
theorem complete_literal (settings : Settings) (operations : List Operation) (uri : Text)
    {text : Text} {token : Token} {feature value : Text} {line character : Int}
    (lexed : token ∈ tokenize text) (named : token.isName)
    (featureName : IsName feature) (valueName : IsName value)
    (atEnd : (openedText token.text).offsetAt line character = (openedText token.text).length)
    (window : settings.completionWindow.start (openedText token.text).length = .ok 0) :
    let literal := literalText token.text feature value
    let reached := operations ++ [.update uri literal]
    let workspace := (empty settings).run reached
    let object := lastSegment token.text
    bracketOwner (tokenizeCode literal) 1 = some token.text ∧
      feature ∈ workspace.attributes.attributesFor token.text ∧
      trigger? (openedText token.text) = some (.bracket object) ∧
      (object = token.text ↔ IsName token.text) ∧
      ∃ names, Offers names (Gives settings reached object) ∧
        workspace.complete (openedText token.text) line character =
          .ok (numbered (Item.ofName true) 1 names) ∧
        (feature ∈ names ↔
          object = token.text ∨
          (∃ later, segmentsOf token.text = object :: feature :: later) ∨
          ∃ other content, other ≠ uri ∧
            lastText? other (history settings operations) = some content ∧
            feature ∈ AttributeMap.attributes (extractAttributes content) object) := by
  intro literal reached workspace object
  obtain ⟨before, rest, -, -, shape, -⟩ := (isTokenization_tokenize text).stands token lexed
  have kinds : token.kind = .identifier ∨ token.kind = .tag := by
    simpa [Token.isName] using named
  have current : UnionCurrent settings reached :=
    unionCurrent_concat_update settings operations uri literal
  have taught : ∀ {owner : Text},
      feature ∈ AttributeMap.attributes (extractAttributes literal) owner ↔
        (∃ later, segmentsOf token.text = owner :: feature :: later) ∨ owner = token.text := by
    intro owner
    rw [mem_attributes_literalText shape featureName valueName kinds]
    simp
  refine ⟨bracketOwner_literalText shape featureName valueName, ?_,
    trigger?_openedText shape kinds, lastSegment_eq_iff shape kinds, ?_⟩
  · rw [mem_attributesFor_iff_gives current, gives_update_iff]
    exact .inl (taught.mpr (.inr rfl))
  · have offers : Offers (rankNames (workspace.attributes.attributesFor object))
        (Gives settings reached object) :=
      offers_rankNames (nodup_attributesFor object)
        fun name => mem_attributesFor_iff_gives current
    refine ⟨_, offers, ?_, ?_⟩
    · have same : workspace.settings = settings := run_settings (empty settings) reached
      have clamped : (openedText token.text).clampOffset
          ((openedText token.text).offsetAt line character) = (openedText token.text).length := by
        rw [atEnd]
        simp [Text.clampOffset]
      show Completion.complete workspace.settings _ _ _ _ = _
      rw [same]
      exact complete_openedText shape kinds clamped window _ _
    · rw [offers.members, gives_update_iff, taught, or_assoc, or_left_comm]

theorem complete_literal_plainName :
    let workspace := (empty .standard).run [.update ['u'] "A [ x y ]".toList]
    ∃ names, ['x'] ∈ names ∧
      workspace.complete "A [".toList 0 3 = .ok (numbered (Item.ofName true) 1 names) := by
  intro workspace
  have lexed : ⟨.identifier, ['A'], 0⟩ ∈ tokenize ['A'] := by decide
  have feature : IsName ['x'] := by decide
  have value : IsName ['y'] := by decide
  obtain ⟨-, -, -, -, names, -, answer, offered⟩ :=
    complete_literal .standard [] ['u'] lexed rfl feature value
      (by decide : (openedText ['A']).offsetAt 0 3 = (openedText ['A']).length) rfl
  exact ⟨names, offered.mpr (.inl (by decide)), answer⟩

/-- A dotted owner, whose attribute is known and yet not offered. -/
theorem complete_misses_dottedOwner :
    let workspace := (empty .standard).run [.update ['u'] "A.b [ x y ]".toList]
    workspace.attributes.attributesFor "A.b".toList = [['x']] ∧
      workspace.complete "A.b [".toList 0 5 = .ok [] := by
  intro workspace
  have shape : IsLexeme [] .identifier "A.b".toList :=
    .identifier (.dot (by decide : IsName ['A']) (.run (by decide : IsName ['b'])))
      ⟨by simp, by simp⟩
  have unknown : workspace.attributes.attributesFor ['b'] = [] := by decide
  refine ⟨by decide, ?_⟩
  show Completion.complete .standard workspace.attributes workspace.tags
    (openedText "A.b".toList) 5 = _
  rw [complete_openedText shape (.inl rfl) rfl rfl]
  change Except.ok (attributeItems (workspace.attributes.attributesFor ['b']) true) = _
  rw [unknown, attributeItems, rankNames, List.mergeSort_nil]
  rfl

end Workspace

end GrammarLens
