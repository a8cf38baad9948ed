import GrammarLens.Completion
import GrammarLens.Proofs.AttributeUnion
import GrammarLens.Proofs.BracketNesting

/-!
Contract: completion after a comma agrees with extraction.

Owns:
- the comma that is found reading backwards: only balanced brackets stand behind it;
- the name that is being typed takes no part in the nesting;
- completion continues a bracket exactly behind such a comma, and a name typed there is an
  attribute of the object whose attributes are offered.

## Why backwards and forwards agree

Reading backwards counts the brackets that are still to be opened, reading forwards those that are
still to be closed. Between the comma and the cursor both counts return to zero, so the comma and
the cursor lie in the same bracket, and that is the innermost one that is open.
-/

namespace GrammarLens

namespace Completion

/-! ## The comma behind the cursor -/

private theorem commaBehind_balanced {brackets : List Token} (balanced : Balanced brackets)
    (nested : Nat) (rest : List Token) :
    commaBehind nested (brackets.reverse ++ rest) = commaBehind nested rest := by
  induction balanced generalizing nested rest with
  | nil => rfl
  | wrap opens closes _ _ withinRead behindRead =>
      rw [List.reverse_cons, List.reverse_append, List.reverse_cons, List.append_assoc,
        List.append_assoc, List.append_assoc, behindRead, List.singleton_append, commaBehind,
        closes]
      show commaBehind (nested + 1) _ = _
      rw [withinRead, List.singleton_append, commaBehind, opens]
      rfl

/-- Brackets read from their end, of which `nested` are still to be opened: runs of balanced
brackets, each but the last followed by one that closes. -/
inductive Unopened : Nat → List Token → Prop
  | done {brackets : List Token} (balanced : Balanced brackets) : Unopened 0 brackets
  | closing {nested : Nat} {brackets rest : List Token} {token : Token}
      (balanced : Balanced brackets) (closes : token.kind = .rightBracket)
      (behind : Unopened nested rest) : Unopened (nested + 1) (brackets ++ token :: rest)

theorem Unopened.append {nested : Nat} {first rest : List Token} (balanced : Balanced first)
    (unopened : Unopened nested rest) : Unopened nested (first ++ rest) := by
  cases unopened with
  | done behind => exact .done (balanced.append behind)
  | closing within closes behind =>
      rw [← List.append_assoc]
      exact .closing (balanced.append within) closes behind

private theorem exists_comma_of_commaBehind {nested : Nat} {reversed behind : List Token}
    (unopened : Unopened nested behind) (found : commaBehind nested reversed) :
    ∃ earlier comma brackets, reversed.reverse ++ behind = earlier ++ comma :: brackets ∧
      comma.kind = .comma ∧ Balanced brackets := by
  -- `behind` is what has been read, so that the brackets are put together as they are met.
  induction reversed generalizing nested behind with
  | nil => simp [commaBehind] at found
  | cons token rest inductionHypothesis =>
      rw [List.reverse_cons, List.append_assoc, List.singleton_append]
      rw [commaBehind] at found
      cases kind : token.kind with
      | rightBracket =>
          rw [kind] at found
          exact inductionHypothesis (.closing .nil kind unopened) found
      | leftBracket =>
          rw [kind] at found
          cases unopened with
          | done => simp at found
          | @closing nested brackets rest closer balanced closes after =>
              have wrapped : Balanced (token :: (brackets ++ [closer])) :=
                .wrap kind closes balanced .nil
              have merged := Unopened.append wrapped after
              rw [List.cons_append, List.append_assoc, List.singleton_append] at merged
              exact inductionHypothesis merged (by simpa using found)
      | comma =>
          rw [kind] at found
          cases unopened with
          | done balanced => exact ⟨rest.reverse, token, behind, rfl, kind, balanced⟩
          | closing => simp at found
      | identifier | tag | leftAngle | rightAngle | ampersand => simp [kind] at found

private theorem commaBehind_reverse_iff {tokens : List Token} :
    commaBehind 0 tokens.reverse ↔
      ∃ earlier comma brackets, tokens = earlier ++ comma :: brackets ∧
        comma.kind = .comma ∧ Balanced brackets := by
  constructor
  · intro found
    have split := exists_comma_of_commaBehind (.done .nil) found
    rwa [List.reverse_reverse, List.append_nil] at split
  · rintro ⟨earlier, comma, brackets, rfl, kind, balanced⟩
    rw [List.reverse_append, List.reverse_cons, List.append_assoc, commaBehind_balanced balanced,
      List.singleton_append, commaBehind, kind]
    rfl

/-! ## Agreement -/

/-- A comma that only balanced brackets follow stands inside the innermost open bracket, at its
level. -/
theorem exists_level_comma {before inner earlier brackets : List Token} {bracket comma : Token}
    (opens : bracket.kind = .leftBracket) (level : nestedAfter 0 inner = some 0)
    (isComma : comma.kind = .comma) (balanced : Balanced brackets)
    (split : before ++ bracket :: inner = earlier ++ comma :: brackets) :
    ∃ passed, inner = passed ++ comma :: brackets ∧ nestedAfter 0 passed = some 0 := by
  have different : comma ≠ bracket := by
    rintro rfl
    simp [opens] at isComma
  have inside : ∃ passed, inner = passed ++ comma :: brackets := by
    rcases List.append_eq_append_iff.mp split with ⟨gap, rfl, shape⟩ | ⟨gap, rfl, shape⟩
    · cases gap with
      | nil => exact absurd (List.cons.inj shape).1.symm different
      | cons head tail => exact ⟨tail, (List.cons.inj shape).2⟩
    · cases gap with
      | nil => exact absurd (List.cons.inj shape).1 different
      | cons head tail =>
          -- The open bracket cannot be one of the balanced ones, which all are closed again.
          have inBrackets : brackets = tail ++ bracket :: inner := (List.cons.inj shape).2
          have closed := balanced.nestedAfter 0
          rw [inBrackets, nestedAfter_append] at closed
          cases reached : nestedAfter 0 tail with
          | none => simp [reached] at closed
          | some outer =>
              have stillOpen : nestedAfter (outer + 1) inner = some (outer + 1) := by
                simpa [Nat.add_comm] using nestedAfter_add (outer + 1) level
              rw [reached, Option.bind_some, nestedAfter_opening opens, stillOpen] at closed
              simp at closed
  obtain ⟨passed, shape⟩ := inside
  refine ⟨passed, shape, ?_⟩
  rw [shape, nestedAfter_append] at level
  cases reached : nestedAfter 0 passed with
  | none => simp [reached] at level
  | some outer =>
      rw [reached, Option.bind_some, nestedAfter, isComma] at level
      have counted := balanced.nestedAfter outer
      simpa [counted] using level

/-- Behind a comma at the level of a bracket, a name at the end heads a segment of that bracket. -/
theorem mem_segmentHeads_of_comma {passed brackets : List Token} {comma name : Token}
    (level : nestedAfter 0 passed = some 0) (isComma : comma.kind = .comma)
    (balanced : Balanced brackets) (named : name.isName) :
    baseName name.text ∈ segmentHeads 0 true (passed ++ comma :: brackets ++ [name]) := by
  obtain ⟨heads, expecting, whole⟩ := segmentHeads_append true level
  have tail : segmentHeads 0 expecting (comma :: (brackets ++ [name])) = [baseName name.text] := by
    rw [segmentHeads, isComma]
    show segmentHeads 0 (expecting || true) (brackets ++ [name]) = _
    rw [balanced.segmentHeads, Bool.or_true]
    simp only [Token.isName, Bool.or_eq_true, decide_eq_true_eq] at named
    rcases named with kind | kind
    · simp [segmentHeads, kind]
    · simp [segmentHeads, kind]
  rw [List.append_assoc, List.cons_append, whole, tail]
  exact List.mem_append_right _ List.mem_cons_self

/-- A token with the text of a name is no bracket. -/
theorem not_bracket_of_mem_tokenize {text : Text} {token : Token} (member : token ∈ tokenize text)
    (name : IsName token.text) : token.kind ≠ .leftBracket ∧ token.kind ≠ .rightBracket := by
  obtain ⟨⟨position, kind, lexeme⟩, occurs, rfl⟩ := List.mem_map.mp member
  obtain ⟨_, suffix, length, _, _, matched⟩ := Text.match_of_mem_occurrences occurs
  obtain ⟨found, leads, same⟩ := Option.map_eq_some_iff.mp matched
  obtain ⟨rfl, -⟩ := Prod.mk.inj same
  cases suffix with
  | nil => simp [leadingToken?] at leads
  | cons c rest =>
      rw [leadingToken?] at leads
      split at leads
      · obtain ⟨rfl, -⟩ := Prod.mk.inj (Option.some.inj leads)
        simp
      · next other =>
        split at leads
        · obtain ⟨rfl, -⟩ := Prod.mk.inj (Option.some.inj leads)
          simp
        · obtain ⟨structural, -, same⟩ := Option.map_eq_some_iff.mp leads
          obtain ⟨-, rfl⟩ := Prod.mk.inj same
          exact absurd (name.2 c (by simp)) other

private theorem isName_of_nonempty?_typedRun {before typed : Text}
    (found : nonempty? (typedRun before) = some typed) : IsName typed := by
  unfold nonempty? at found
  split at found
  · simp at found
  · next occupied =>
    obtain rfl := Option.some.inj found
    exact ⟨by simpa using occupied, fun c member => Text.mem_trailing member⟩

/-- The name that is still being typed opens and closes no bracket. -/
theorem enclosingOwner?_settledTokens (offset : Nat) (before : Text) :
    enclosingOwner? (Context.ofBefore offset before).settledTokens =
      (Context.ofBefore offset before).enclosing := by
  show enclosingOwner? _ = enclosingOwner? (tokenizeCode before)
  unfold Context.settledTokens
  split
  · next typed last typedIs lastIs =>
    split
    · next same =>
      obtain ⟨earlier, split⟩ := List.getLast?_eq_some_iff.mp lastIs
      have tokens : tokenizeCode before = earlier ++ [last] := split
      have present : last ∈ tokenize (blankComments before) := by
        show last ∈ tokenizeCode before
        simp [tokens]
      have name : IsName last.text := same ▸ isName_of_nonempty?_typedRun typedIs
      obtain ⟨notOpening, notClosing⟩ := not_bracket_of_mem_tokenize present name
      have unchanged : openOwners none [] (earlier ++ [last]) = openOwners none [] earlier := by
        rw [openOwners_append, openOwners_singleton notOpening notClosing]
      rw [split, tokens, List.dropLast_concat, enclosingOwner?, enclosingOwner?, unchanged]
    · rfl
  · rfl

theorem Context.eq_ofBefore_of_build {settings : Settings} {text : Text} {offset : Nat}
    {context : Context} (built : Context.build settings text offset = .ok context) :
    ∃ before, context = Context.ofBefore offset before := by
  unfold Context.build at built
  cases started : settings.completionWindow.start offset with
  | error fault => simp [started, bind, Except.bind] at built
  | ok first =>
      simp only [started, bind, Except.bind, pure, Except.pure, Except.ok.injEq] at built
      exact ⟨text.slice first offset, built.symm⟩

/-- Completion continues a bracket exactly where a comma leaves room in it, and what is typed there
is filed under the object whose attributes are offered. -/
theorem continuing_agrees (settings : Settings) (text : Text) (offset : Int) {context : Context}
    (built : Context.build settings text (text.clampOffset offset) = .ok context) :
    ((∃ object, context.continuing? = some object) ↔
      context.enclosing ≠ none ∧
        ∃ earlier comma brackets, context.settledTokens = earlier ++ comma :: brackets ∧
          comma.kind = .comma ∧ Balanced brackets) ∧
    ∀ object, context.continuing? = some object →
      context.enclosing = some object ∧
      (∀ attributes tags, trigger? context.before = none →
        complete settings attributes tags text offset = .ok (continuationItems attributes object)) ∧
      ∀ name : Token, name.isName →
        baseName name.text ∈
          AttributeMap.attributes (bracketedMap (context.settledTokens ++ [name])) object := by
  have owners : enclosingOwner? context.settledTokens = context.enclosing := by
    obtain ⟨before, rfl⟩ := Context.eq_ofBefore_of_build built
    exact enclosingOwner?_settledTokens _ before
  have decided : ∀ object, context.continuing? = some object ↔
      context.enclosing = some object ∧
        ∃ earlier comma brackets, context.settledTokens = earlier ++ comma :: brackets ∧
          comma.kind = .comma ∧ Balanced brackets := by
    intro object
    rw [Context.continuing?, Option.filter_eq_some_iff, commaBehind_reverse_iff]
  constructor
  · constructor
    · rintro ⟨object, continues⟩
      obtain ⟨enclosed, room⟩ := (decided object).mp continues
      exact ⟨by simp [enclosed], room⟩
    · rintro ⟨enclosed, room⟩
      obtain ⟨object, found⟩ := Option.ne_none_iff_exists'.mp enclosed
      exact ⟨object, (decided object).mpr ⟨found, room⟩⟩
  · intro object continues
    obtain ⟨enclosed, earlier, comma, brackets, split, isComma, balanced⟩ :=
      (decided object).mp continues
    refine ⟨enclosed, ?_, ?_⟩
    · intro attributes tags untriggered
      simp only [complete, built, bind, Except.bind, untriggered, continues]
      rfl
    · intro name named
      obtain ⟨before, owner, bracket, inner, shape, rfl, opens, level⟩ :=
        exists_bracket_of_enclosingOwner? (owners.trans enclosed)
      have sameTokens : (before ++ [owner]) ++ bracket :: inner = earlier ++ comma :: brackets := by
        rw [← split, shape]
        simp
      obtain ⟨passed, rfl, passedLevel⟩ := exists_level_comma opens level isComma balanced sameTokens
      have heads := mem_segmentHeads_of_comma passedLevel isComma balanced named
      have listed : (owner.text, baseName name.text) ∈
          bracketedAttributes
            (before ++ owner :: bracket :: (passed ++ comma :: brackets ++ [name])) :=
        mem_bracketedAttributes opens heads
      rw [bracketedMap, AttributeMap.mem_attributes_addPairs, shape, List.append_assoc,
        List.cons_append, List.cons_append]
      exact .inr listed

/-- Behind the comma stands a pair of brackets, and a name is being typed. -/
theorem continuing_agrees_halfTyped :
    let text : Text := "A [ x [ y ], [ ] b".toList
    let context := Context.ofBefore 18 text
    context.continuing? = some ['A'] ∧ context.enclosing = some ['A'] ∧
      ['z'] ∈ AttributeMap.attributes
        (bracketedMap (context.settledTokens ++ [⟨.identifier, ['z'], 18⟩])) ['A'] := by
  intro text context
  have built : Context.build .standard text (text.clampOffset 18) = .ok context := by
    decide
  have continues : context.continuing? = some ['A'] := by decide
  obtain ⟨enclosed, -, filed⟩ := (continuing_agrees .standard text 18 built).2 ['A'] continues
  exact ⟨continues, enclosed, filed ⟨.identifier, ['z'], 18⟩ rfl⟩

end Completion

end GrammarLens
