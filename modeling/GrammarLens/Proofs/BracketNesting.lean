import GrammarLens.Completion.Context
import GrammarLens.Proofs.NameRun
import Mathlib.Data.List.Induction

/-!
Contract: the nesting of square brackets in a list of tokens, as extraction and completion see it.

Owns:
- balanced brackets, and the number of open brackets after some tokens;
- extraction reads on through tokens that keep a bracket open, and passes over balanced ones;
- the owners of the brackets that are open at the end: the innermost bracket, and what stands
  in it.

Does not own: what completion offers inside a bracket.
-/

namespace GrammarLens

/-! ## Nesting -/

/-- Square brackets that close each other, with nothing else between them. -/
inductive Balanced : List Token → Prop
  | nil : Balanced []
  | wrap {opening closing : Token} {inner rest : List Token}
      (opens : opening.kind = .leftBracket) (closes : closing.kind = .rightBracket)
      (within : Balanced inner) (behind : Balanced rest) :
      Balanced (opening :: (inner ++ closing :: rest))

theorem Balanced.append {first second : List Token} (left : Balanced first)
    (right : Balanced second) : Balanced (first ++ second) := by
  induction left with
  | nil => exact right
  | wrap opens closes within _ _ behindAppend =>
      rw [List.cons_append, List.append_assoc, List.cons_append]
      exact .wrap opens closes within behindAppend

/-- How many brackets are open after tokens, `nested` of them before; none when one is closed that
was opened before the count began. -/
def nestedAfter : (nested : Nat) → List Token → Option Nat
  | nested, [] => some nested
  | nested, token :: rest =>
    match token.kind with
    | .leftBracket => nestedAfter (nested + 1) rest
    | .rightBracket => if nested = 0 then none else nestedAfter (nested - 1) rest
    | _ => nestedAfter nested rest

theorem nestedAfter_opening {token : Token} (opens : token.kind = .leftBracket) (nested : Nat)
    (rest : List Token) : nestedAfter nested (token :: rest) = nestedAfter (nested + 1) rest := by
  rw [nestedAfter, opens]

theorem nestedAfter_closing {token : Token} (closes : token.kind = .rightBracket) (nested : Nat)
    (rest : List Token) : nestedAfter (nested + 1) (token :: rest) = nestedAfter nested rest := by
  rw [nestedAfter, closes]
  rfl

theorem nestedAfter_append (nested : Nat) (first second : List Token) :
    nestedAfter nested (first ++ second) =
      (nestedAfter nested first).bind fun between => nestedAfter between second := by
  induction first generalizing nested with
  | nil => rfl
  | cons token rest inductionHypothesis =>
      rw [List.cons_append, nestedAfter, nestedAfter]
      split
      · exact inductionHypothesis _
      · split
        · rfl
        · exact inductionHypothesis _
      · exact inductionHypothesis _

/-- Brackets that were open all the time change nothing but the count. -/
theorem nestedAfter_add {nested remaining : Nat} {tokens : List Token} (outer : Nat)
    (counted : nestedAfter nested tokens = some remaining) :
    nestedAfter (nested + outer) tokens = some (remaining + outer) := by
  induction tokens generalizing nested with
  | nil =>
      have same : nested = remaining := Option.some.inj counted
      rw [nestedAfter, same]
  | cons token rest inductionHypothesis =>
      rw [nestedAfter] at counted ⊢
      split at counted
      · have next := inductionHypothesis counted
        rwa [Nat.add_right_comm] at next
      · split at counted
        · exact absurd counted (by simp)
        · next occupied =>
          have next := inductionHypothesis counted
          rw [if_neg (by omega)]
          rwa [show nested + outer - 1 = nested - 1 + outer by omega]
      · exact inductionHypothesis counted

theorem Balanced.nestedAfter {brackets : List Token} (balanced : Balanced brackets) (nested : Nat) :
    nestedAfter nested brackets = some nested := by
  induction balanced generalizing nested with
  | nil => rfl
  | wrap opens closes _ _ withinCount behindCount =>
      rw [nestedAfter_opening opens, nestedAfter_append, withinCount, Option.bind_some,
        nestedAfter_closing closes]
      exact behindCount nested

/-! ## Segments -/

/-- Tokens that leave a bracket open are read through: what follows them is read at the nesting
they lead to. -/
theorem segmentHeads_append {nested remaining : Nat} {tokens : List Token} (expecting : Bool)
    (counted : nestedAfter nested tokens = some remaining) :
    ∃ heads awaiting, ∀ rest, segmentHeads nested expecting (tokens ++ rest) =
      heads ++ segmentHeads remaining awaiting rest := by
  induction tokens generalizing nested expecting with
  | nil =>
      have same : nested = remaining := Option.some.inj counted
      subst same
      exact ⟨[], expecting, fun rest => rfl⟩
  | cons token later inductionHypothesis =>
      rw [nestedAfter] at counted
      cases kind : token.kind with
      | leftBracket =>
          rw [kind] at counted
          obtain ⟨heads, awaiting, whole⟩ := inductionHypothesis expecting counted
          refine ⟨heads, awaiting, fun rest => ?_⟩
          rw [← whole, List.cons_append, segmentHeads, kind]
      | rightBracket =>
          rw [kind] at counted
          have occupied : nested ≠ 0 := by
            rintro rfl
            simp at counted
          simp only [if_neg occupied] at counted
          obtain ⟨heads, awaiting, whole⟩ := inductionHypothesis expecting counted
          refine ⟨heads, awaiting, fun rest => ?_⟩
          rw [← whole, List.cons_append, segmentHeads, kind]
          exact if_neg occupied
      | comma =>
          rw [kind] at counted
          obtain ⟨heads, awaiting, whole⟩ :=
            inductionHypothesis (expecting || nested = 0) counted
          refine ⟨heads, awaiting, fun rest => ?_⟩
          rw [← whole, List.cons_append, segmentHeads, kind]
      | identifier | tag =>
          rw [kind] at counted
          by_cases heads : nested = 0 && expecting
          · obtain ⟨others, awaiting, whole⟩ := inductionHypothesis false counted
            refine ⟨baseName token.text :: others, awaiting, fun rest => ?_⟩
            rw [List.cons_append, List.cons_append, ← whole, segmentHeads, kind]
            exact if_pos heads
          · obtain ⟨others, awaiting, whole⟩ := inductionHypothesis expecting counted
            refine ⟨others, awaiting, fun rest => ?_⟩
            rw [← whole, List.cons_append, segmentHeads, kind]
            exact if_neg heads
      | leftAngle | rightAngle | ampersand =>
          rw [kind] at counted
          obtain ⟨heads, awaiting, whole⟩ := inductionHypothesis expecting counted
          refine ⟨heads, awaiting, fun rest => ?_⟩
          rw [← whole, List.cons_append, segmentHeads, kind]

theorem Balanced.segmentHeads {brackets : List Token} (balanced : Balanced brackets)
    (nested : Nat) (expecting : Bool) (rest : List Token) :
    segmentHeads nested expecting (brackets ++ rest) = segmentHeads nested expecting rest := by
  induction balanced generalizing nested rest with
  | nil => rfl
  | wrap opens closes _ _ withinHeads behindHeads =>
      rw [List.cons_append, List.append_assoc, GrammarLens.segmentHeads, opens]
      show GrammarLens.segmentHeads (nested + 1) expecting (_ ++ _) = _
      rw [withinHeads, List.cons_append, GrammarLens.segmentHeads, closes]
      exact behindHeads nested rest

theorem mem_bracketedAfter_append {previous : Option Token} {before tokens : List Token}
    {pair : Text × Text} (member : pair ∈ bracketedAfter (before.getLast?.or previous) tokens) :
    pair ∈ bracketedAfter previous (before ++ tokens) := by
  induction before generalizing previous with
  | nil => exact member
  | cons token rest inductionHypothesis =>
      have later : pair ∈ bracketedAfter (some token) (rest ++ tokens) := by
        apply inductionHypothesis
        rwa [getLast?_cons_or] at member
      rw [List.cons_append]
      unfold bracketedAfter
      exact List.mem_append_right _ later

/-- The heads of a bracket's segments are attributes of the token before it. -/
theorem mem_bracketedAttributes {before inner : List Token} {owner bracket : Token} {head : Text}
    (opens : bracket.kind = .leftBracket) (member : head ∈ segmentHeads 0 true inner) :
    (owner.text, head) ∈ bracketedAttributes (before ++ owner :: bracket :: inner) := by
  have here : (owner.text, head) ∈ bracketedAfter (some owner) (bracket :: inner) := by
    unfold bracketedAfter
    rw [opens]
    exact List.mem_append_left _ (List.mem_map.mpr ⟨head, member, rfl⟩)
  have split : before ++ owner :: bracket :: inner = (before ++ [owner]) ++ bracket :: inner := by
    simp
  rw [bracketedAttributes, split]
  apply mem_bracketedAfter_append
  simpa using here

/-! ## Owners of open brackets -/

namespace Completion

theorem openOwners_append (previous : Option Token) (opened : List (Option Text))
    (first second : List Token) :
    openOwners previous opened (first ++ second) =
      openOwners (first.getLast?.or previous) (openOwners previous opened first) second := by
  induction first generalizing previous opened with
  | nil => rfl
  | cons token rest inductionHypothesis =>
      rw [List.cons_append, openOwners, openOwners, inductionHypothesis, getLast?_cons_or]

theorem openOwners_singleton {token : Token} (notOpening : token.kind ≠ .leftBracket)
    (notClosing : token.kind ≠ .rightBracket) (previous : Option Token)
    (opened : List (Option Text)) : openOwners previous opened [token] = opened := by
  cases kind : token.kind with
  | leftBracket => exact absurd kind notOpening
  | rightBracket => exact absurd kind notClosing
  | identifier | tag | leftAngle | rightAngle | comma | ampersand => simp only [openOwners, kind]

/-- Tokens inside open brackets with the given owners, innermost first. -/
inductive Encloses : List Token → List (Option Text) → Prop
  | outside (tokens : List Token) : Encloses tokens []
  | inside {before inner : List Token} {bracket : Token} {owners : List (Option Text)}
      (opens : bracket.kind = .leftBracket) (level : nestedAfter 0 inner = some 0)
      (outer : Encloses before owners) :
      Encloses (before ++ bracket :: inner) (before.getLast?.map Token.text :: owners)

theorem Encloses.extend {tokens more : List Token} {owners : List (Option Text)}
    (encloses : Encloses tokens owners) (level : nestedAfter 0 more = some 0) :
    Encloses (tokens ++ more) owners := by
  cases encloses with
  | outside => exact .outside _
  | inside opens before outer =>
      rw [List.append_assoc, List.cons_append]
      refine .inside opens ?_ outer
      rw [nestedAfter_append, before, Option.bind_some, level]

theorem Encloses.step {tokens : List Token} {owners : List (Option Text)}
    (encloses : Encloses tokens owners) (token : Token) :
    Encloses (tokens ++ [token]) (openOwners tokens.getLast? owners [token]) := by
  cases kind : token.kind with
  | leftBracket =>
      simp only [openOwners, kind]
      exact .inside kind rfl encloses
  | rightBracket =>
      simp only [openOwners, kind]
      cases encloses with
      | outside => exact .outside _
      | @inside before inner bracket owners opens level outer =>
          -- The bracket that is closed here becomes part of what stands in the next one.
          have closed : nestedAfter 0 (bracket :: inner ++ [token]) = some 0 := by
            rw [List.cons_append, nestedAfter_opening opens, nestedAfter_append,
              nestedAfter_add 1 level, Option.bind_some, nestedAfter_closing kind]
            rfl
          rw [List.append_assoc]
          exact outer.extend closed
  | identifier | tag | leftAngle | rightAngle | comma | ampersand =>
      simp only [openOwners, kind]
      exact encloses.extend (by simp [nestedAfter, kind])

theorem encloses_openOwners (tokens : List Token) :
    Encloses tokens (openOwners none [] tokens) := by
  induction tokens using List.reverseRecOn with
  | nil => exact .outside []
  | append_singleton tokens token inductionHypothesis =>
      rw [openOwners_append, Option.or_none]
      exact inductionHypothesis.step token

/-- The innermost open bracket stands right behind the token that owns it, and everything after it
is at its level or closed again. -/
theorem exists_bracket_of_enclosingOwner? {tokens : List Token} {object : Text}
    (enclosed : enclosingOwner? tokens = some object) :
    ∃ before owner bracket inner, tokens = before ++ owner :: bracket :: inner ∧
      owner.text = object ∧ bracket.kind = .leftBracket ∧ nestedAfter 0 inner = some 0 := by
  have encloses := encloses_openOwners tokens
  rw [enclosingOwner?, Option.join_eq_some_iff] at enclosed
  generalize openOwners none [] tokens = owners at enclosed encloses
  cases encloses with
  | outside => simp at enclosed
  | @inside before inner bracket owners opens level outer =>
      have owned : before.getLast?.map Token.text = some object := by simpa using enclosed
      obtain ⟨owner, last, rfl⟩ := Option.map_eq_some_iff.mp owned
      obtain ⟨earlier, rfl⟩ := List.getLast?_eq_some_iff.mp last
      exact ⟨earlier, owner, bracket, inner, by simp, rfl, opens, level⟩

end Completion

end GrammarLens
