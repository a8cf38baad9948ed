import GrammarLens.Workspace.Query
import GrammarLens.Proofs.AttributeUnion
import GrammarLens.Proofs.NameRun
import GrammarLens.Proofs.Ranking

/-!
Contract: the attributes that completion offers for an object.

Owns:
- how the end of a text asks for the attributes of an object, and that nothing else is
  recognized there first;
- the answer is what the files give to the object as they are now: all of it, each once, ranked
  from one, and nothing from elsewhere when they give none.

Does not own: the continuation after a comma, and names that nothing leads up to.
-/

namespace GrammarLens

namespace Completion

/-! ## The end of a text -/

/-- How the end of a text asks for the attributes of an object that start in a given way: after the
object's dot, after a dot and the start, or after the bracket that the object opens. -/
inductive Asks (object : Text) : (start fragment : Text) → Prop
  | dot : Asks object [] (object ++ ['.'])
  | segment {start : Text} (name : IsName start) : Asks object start (object ++ '.' :: start)
  | bracket {gap inner : Text} (gapBlank : ∀ c ∈ gap, Text.isBlank c)
      (innerBlank : ∀ c ∈ inner, Text.isBlank c) : Asks object [] (object ++ gap ++ '[' :: inner)

theorem dropFinalNewline_eq_self {text : Text} {c : Char} (last : text.getLast? = some c)
    (visible : c ≠ '\n') : Text.dropFinalNewline text = text := by
  rw [Text.dropFinalNewline, last, if_neg (by simpa using visible)]

section Triggers

variable {earlier object : Text}
  (stops : ∀ c, earlier.getLast? = some c → isNameChar c = false) (name : IsName object)

include stops name

theorem nonempty?_trailing :
    nonempty? (Text.trailing isNameChar (earlier ++ object)) = some object := by
  have occupied : ¬ object.isEmpty := by simpa using name.1
  rw [Text.trailing_append stops, Text.trailing_of_forall name.2, nonempty?, if_neg occupied]

theorem dottedObject?_append : dottedObject? (earlier ++ object ++ ['.']) = some object := by
  rw [dottedObject?, if_pos (by simp), List.dropLast_concat, nonempty?_trailing stops name]

private theorem trigger?_dot :
    trigger? (earlier ++ object ++ ['.']) = some (.attributes object) := by
  have last : (earlier ++ object ++ ['.']).getLast? = some '.' := by simp
  have visible := dropFinalNewline_eq_self last (by decide)
  have untagged : tagTrigger? (earlier ++ object ++ ['.']) = none := by
    simp only [tagTrigger?]
    rw [visible, Text.dropTrailing_eq_self (by simp; decide), if_neg (by simp)]
  rw [trigger?, untagged, dotTrigger?, visible, dottedObject?_append stops name]
  rfl

private theorem trigger?_segment {start : Text} (started : IsName start) :
    trigger? (earlier ++ object ++ '.' :: start) = some (.attributesStarting object start) := by
  have split : earlier ++ object ++ '.' :: start = (earlier ++ object ++ ['.']) ++ start := by simp
  have stopsAtDot : ∀ {belongs : Char → Bool}, belongs '.' = false →
      ∀ c, (earlier ++ object ++ ['.']).getLast? = some c → belongs c = false := by
    intro belongs other c last
    obtain rfl : '.' = c := by simpa using last
    exact other
  obtain ⟨c, last, belongs⟩ := started.exists_getLast?
  have ending : (earlier ++ object ++ ['.'] ++ start).getLast? = some c := by
    rw [List.getLast?_append_of_ne_nil _ started.1, last]
  have visible := dropFinalNewline_eq_self ending (ne_of_isNameChar belongs (by decide))
  have untagged : tagTrigger? (earlier ++ object ++ ['.'] ++ start) = none := by
    simp only [tagTrigger?]
    rw [visible, Text.dropTrailing_append (stopsAtDot (by decide)), if_neg]
    intro hash
    rw [List.getLast?_append] at hash
    cases rest : (Text.dropTrailing isTagChar start).getLast? with
    | none => simp [rest] at hash
    | some d =>
        have inStart : d ∈ start := by
          rw [← Text.dropTrailing_append_trailing isTagChar start]
          exact List.mem_append_left _ (List.mem_of_getLast? rest)
        have same : d = '#' := by simpa [rest] using hash
        exact ne_of_isNameChar (started.2 d inStart) (by decide) same
  have undotted : dotTrigger? (earlier ++ object ++ ['.'] ++ start) = none := by
    have notDot : c ≠ '.' := ne_of_isNameChar belongs (by decide)
    rw [dotTrigger?, visible, dottedObject?, ending, if_neg (by simpa using notDot)]
    rfl
  have typed : typedRun (earlier ++ object ++ ['.'] ++ start) = start := by
    rw [typedRun, visible, Text.trailing_append (stopsAtDot (by decide)),
      Text.trailing_of_forall started.2]
  have remaining : Text.dropTrailing isNameChar (earlier ++ object ++ ['.'] ++ start) =
      earlier ++ object ++ ['.'] := by
    rw [Text.dropTrailing_append (stopsAtDot (by decide)), Text.dropTrailing_of_forall started.2,
      List.append_nil]
  rw [split, trigger?, untagged, undotted, segmentTrigger?, typed, visible, remaining,
    dottedObject?_append stops name, nonempty?, if_neg (by simpa using started.1)]
  rfl

private theorem bracketTrigger?_append {gap inner : Text} (gapBlank : ∀ c ∈ gap, Text.isBlank c)
    (innerBlank : ∀ c ∈ inner, Text.isBlank c) :
    bracketTrigger? (earlier ++ object ++ gap ++ '[' :: inner) = some (.bracket object) := by
  have opened : Text.dropTrailing Text.isBlank (earlier ++ object ++ gap ++ '[' :: inner) =
      earlier ++ object ++ gap ++ ['['] := by
    have split : earlier ++ object ++ gap ++ '[' :: inner =
        (earlier ++ object ++ gap ++ ['[']) ++ inner := by simp
    rw [split, Text.dropTrailing_append (by simp; decide), Text.dropTrailing_of_forall innerBlank,
      List.append_nil]
  obtain ⟨d, objectLast, belongs⟩ := name.exists_getLast?
  have headLast : (earlier ++ object).getLast? = some d := by
    rw [List.getLast?_append_of_ne_nil _ name.1, objectLast]
  have head : Text.dropTrailing Text.isBlank (earlier ++ object ++ gap) = earlier ++ object := by
    rw [Text.dropTrailing_append, Text.dropTrailing_of_forall gapBlank, List.append_nil]
    intro e same
    obtain rfl := Option.some.inj (headLast.symm.trans same)
    by_contra blank
    have other := not_isNameChar_of_isBlank (by simpa using blank)
    exact ne_of_isNameChar belongs other rfl
  have notJoined : ¬ (earlier ++ object).getLast? = some '&' := by
    rw [headLast]
    simpa using ne_of_isNameChar belongs (by decide : isNameChar '&' = false)
  simp only [bracketTrigger?]
  rw [opened, if_pos (by simp), List.dropLast_concat]
  simp only [bracketObject?]
  rw [head, if_neg notJoined, nonempty?_trailing stops name]
  rfl

end Triggers

/-- A text whose last visible character ends every name neither asks for tags nor for what
follows a dot. -/
theorem trigger?_of_quiet {before : Text} {c : Char}
    (last : (Text.dropFinalNewline before).getLast? = some c) (other : isNameChar c = false)
    (notHash : c ≠ '#') (notDot : c ≠ '.') : trigger? before = bracketTrigger? before := by
  have noName : ∀ d, (Text.dropFinalNewline before).getLast? = some d → isNameChar d = false := by
    intro d same
    obtain rfl := Option.some.inj (last.symm.trans same)
    exact other
  have noTag : ∀ d, (Text.dropFinalNewline before).getLast? = some d → isTagChar d = false := by
    intro d same
    by_contra tagged
    have belongs := isNameChar_of_isTagChar (by simpa using tagged)
    exact ne_of_isNameChar belongs (noName d same) rfl
  have tag : tagTrigger? before = none := by
    simp only [tagTrigger?]
    rw [Text.dropTrailing_eq_self noTag, last, if_neg (by simpa using notHash)]
  have dot : dotTrigger? before = none := by
    rw [dotTrigger?, dottedObject?, last, if_neg (by simpa using notDot)]
    rfl
  have segment : segmentTrigger? before = none := by
    rw [segmentTrigger?, typedRun, Text.trailing_eq_nil noName]
    rfl
  rw [trigger?, tag, dot, segment]
  rfl

/-- Blanks behind a bracket leave the bracket or a blank at the end, also where the last of them is
a newline that is not looked at. -/
theorem getLast?_dropFinalNewline_bracket (before : Text) {inner : Text}
    (innerBlank : ∀ c ∈ inner, Text.isBlank c) :
    ∃ c, (Text.dropFinalNewline (before ++ '[' :: inner)).getLast? = some c ∧
      (c = '[' ∨ Text.isBlank c) := by
  have ends : ∀ blanks : Text, (∀ c ∈ blanks, Text.isBlank c) →
      ∃ c, (before ++ '[' :: blanks).getLast? = some c ∧ (c = '[' ∨ Text.isBlank c) := by
    intro blanks allBlank
    rw [List.getLast?_append_of_ne_nil _ (List.cons_ne_nil _ _), List.getLast?_cons]
    refine ⟨_, rfl, ?_⟩
    cases last : blanks.getLast? with
    | none => exact .inl rfl
    | some c => exact .inr (allBlank c (List.mem_of_getLast? last))
  unfold Text.dropFinalNewline
  split
  · next newline =>
    have occupied : inner ≠ [] := by
      rintro rfl
      simp at newline
    rw [List.dropLast_append_of_ne_nil (List.cons_ne_nil _ _),
      List.dropLast_cons_of_ne_nil occupied]
    apply ends inner.dropLast
    intro c member
    exact innerBlank c ((List.dropLast_sublist inner).subset member)
  · exact ends inner innerBlank

theorem trigger?_bracket {earlier object gap inner : Text}
    (stops : ∀ c, earlier.getLast? = some c → isNameChar c = false) (name : IsName object)
    (gapBlank : ∀ c ∈ gap, Text.isBlank c) (innerBlank : ∀ c ∈ inner, Text.isBlank c) :
    trigger? (earlier ++ object ++ gap ++ '[' :: inner) = some (.bracket object) := by
  obtain ⟨c, last, ending⟩ :=
    getLast?_dropFinalNewline_bracket (earlier ++ object ++ gap) innerBlank
  have quiet : isNameChar c = false ∧ c ≠ '#' ∧ c ≠ '.' := by
    rcases ending with rfl | blank
    · decide
    · refine ⟨not_isNameChar_of_isBlank blank, ?_, ?_⟩
      · rintro rfl
        exact absurd blank (by decide)
      · rintro rfl
        exact absurd blank (by decide)
  rw [trigger?_of_quiet last quiet.1 quiet.2.1 quiet.2.2]
  exact bracketTrigger?_append stops name gapBlank innerBlank

/-! ## The answer at one place -/

theorem Asks.items {object start fragment earlier : Text} (asks : Asks object start fragment)
    (stops : ∀ c, earlier.getLast? = some c → isNameChar c = false) (name : IsName object)
    (attributes : AttributeIndex) (tags : TagIndex) :
    ∃ trigger, trigger? (earlier ++ fragment) = some trigger ∧
      trigger.items attributes tags (earlier ++ fragment) =
        attributeItems
          ((attributes.attributesFor object).filter fun feature => start.isPrefixOf feature)
          (fragment.getLast? = some '[') := by
  cases asks with
  | dot =>
      refine ⟨.attributes object, ?_, ?_⟩
      · rw [← List.append_assoc]
        exact trigger?_dot stops name
      · simp [Trigger.items]
  | segment started =>
      refine ⟨.attributesStarting object start, ?_, ?_⟩
      · rw [← List.append_assoc]
        exact trigger?_segment stops name started
      · obtain ⟨c, last, belongs⟩ := started.exists_getLast?
        have notBracket : c ≠ '[' := ne_of_isNameChar belongs (by decide)
        simp [Trigger.items, List.getLast?_cons, last, notBracket]
  | bracket gapBlank innerBlank =>
      refine ⟨.bracket object, ?_, ?_⟩
      · rw [← List.append_assoc, ← List.append_assoc]
        exact trigger?_bracket stops name gapBlank innerBlank
      · simp [Trigger.items, List.getLast?_append, List.getLast?_cons]

/-- Where the window shows all of a fragment that asks for attributes, these are the answer, also
when there are none. -/
theorem complete_of_asks {settings : Settings} {text earlier fragment object start : Text}
    {offset : Int} {first : Nat}
    (split : text.take (text.clampOffset offset) = earlier ++ fragment)
    (asks : Asks object start fragment) (name : IsName object)
    (maximal : ∀ c, earlier.getLast? = some c → isNameChar c = false)
    (window : settings.completionWindow.start (text.clampOffset offset) = .ok first)
    (inside : first ≤ earlier.length) (attributes : AttributeIndex) (tags : TagIndex) :
    complete settings attributes tags text offset =
      .ok (attributeItems
        ((attributes.attributesFor object).filter fun feature => start.isPrefixOf feature)
        (fragment.getLast? = some '[')) := by
  have shown : text.slice first (text.clampOffset offset) = earlier.drop first ++ fragment := by
    rw [Text.slice, split, List.drop_append_of_le_length inside]
  have shownMaximal : ∀ c, (earlier.drop first).getLast? = some c → isNameChar c = false := by
    intro c last
    rw [List.getLast?_drop] at last
    split at last
    · simp at last
    · exact maximal c last
  obtain ⟨trigger, triggered, items⟩ := asks.items shownMaximal name attributes tags
  let context := Context.ofBefore (text.clampOffset offset) (earlier.drop first ++ fragment)
  have built : Context.build settings text (text.clampOffset offset) = .ok context := by
    simp only [Context.build, window, bind, Except.bind, shown]
    rfl
  have before : context.before = earlier.drop first ++ fragment := rfl
  simp only [complete, built, bind, Except.bind, before, triggered, items]
  rfl

end Completion

/-! ## The answer after a run -/

namespace Workspace

open Completion

/-- Whether a run leaves a file indexed whose text gives an attribute to an object. -/
def Gives (settings : Settings) (operations : List Operation) (object feature : Text) : Prop :=
  ∃ uri content, lastText? uri (history settings operations) = some content ∧
    feature ∈ AttributeMap.attributes (extractAttributes content) object

section Answers

variable {settings : Settings} {operations : List Operation}

/-- An object has the attributes that the files give to it after the settled part of a run. -/
theorem mem_attributesFor_iff_gives_settled {object feature : Text} :
    feature ∈ ((empty settings).run operations).attributes.attributesFor object ↔
      Gives settings (settledPart settings operations) object feature := by
  rw [run_mem_attributesFor]
  simp only [run_files, Option.map_eq_some_iff]
  constructor
  · rintro ⟨uri, known, ⟨content, last, rfl⟩, given⟩
    exact ⟨uri, content, last, given⟩
  · rintro ⟨uri, content, last, given⟩
    exact ⟨uri, _, ⟨content, last, rfl⟩, given⟩

theorem mem_attributesFor_iff_gives (current : UnionCurrent settings operations)
    {object feature : Text} :
    feature ∈ ((empty settings).run operations).attributes.attributesFor object ↔
      Gives settings operations object feature := by
  rw [mem_attributesFor_iff_gives_settled, settledPart_of_current current]

theorem nodup_attributesFor (object : Text) :
    (((empty settings).run operations).attributes.attributesFor object).Nodup :=
  (run_isProper_merged settings operations).once object

end Answers

/-- Completion offers an object's attributes as the files give them after the settled part of a
run, whatever the run that led to these files. The settled part is the whole run, if every
operation came to its end. -/
theorem complete_attributes (settings : Settings) (operations : List Operation) (text : Text)
    (offset : Int) {earlier fragment object start : Text} {first : Nat}
    (split : text.take (text.clampOffset offset) = earlier ++ fragment)
    (asks : Asks object start fragment) (name : IsName object)
    (maximal : ∀ c, earlier.getLast? = some c → isNameChar c = false)
    (window : settings.completionWindow.start (text.clampOffset offset) = .ok first)
    (inside : first ≤ earlier.length) :
    let answer := fun run =>
      let reached := (empty settings).run run
      Completion.complete reached.settings reached.attributes reached.tags text offset
    let settled := settledPart settings operations
    (∃ names,
      Offers names (fun feature => start <+: feature ∧ Gives settings settled object feature) ∧
      answer operations =
        .ok (numbered (Item.ofName (fragment.getLast? = some '[')) 1 names)) ∧
    ((∀ feature, start <+: feature → ¬ Gives settings settled object feature) →
      answer operations = .ok []) ∧
    (∀ others,
      (∀ uri, lastText? uri (history settings (settledPart settings others)) =
        lastText? uri (history settings settled)) →
      answer others = answer operations) ∧
    ((empty settings).Completed operations → UnionCurrent settings operations) ∧
    (UnionCurrent settings operations ↔ settled = operations) := by
  intro answer settled
  have answered : ∀ run, ∃ names,
      Offers names (fun feature =>
        start <+: feature ∧ Gives settings (settledPart settings run) object feature) ∧
      answer run = .ok (numbered (Item.ofName (fragment.getLast? = some '[')) 1 names) := by
    intro run
    let known := ((empty settings).run run).attributes.attributesFor object
    refine ⟨rankNames (known.filter fun feature => start.isPrefixOf feature), ?_, ?_⟩
    · apply offers_rankNames ((nodup_attributesFor object).filter _)
      intro feature
      rw [List.mem_filter, List.isPrefixOf_iff_prefix, mem_attributesFor_iff_gives_settled,
        and_comm]
    · have same : ((empty settings).run run).settings = settings :=
        run_settings (empty settings) run
      show Completion.complete ((empty settings).run run).settings _ _ text offset = _
      rw [same]
      exact complete_of_asks split asks name maximal window inside _ _
  obtain ⟨names, offers, answerIs⟩ := answered operations
  refine ⟨⟨names, offers, answerIs⟩, ?_, ?_, unionCurrent_of_completed, settledPart_eq_iff.symm⟩
  · intro nothing
    have vacant : names = [] := by
      rw [List.eq_nil_iff_forall_not_mem]
      intro feature member
      obtain ⟨starts, given⟩ := (offers.members feature).mp member
      exact nothing feature starts given
    rw [answerIs, vacant]
    rfl
  · intro others sameTexts
    obtain ⟨otherNames, otherOffers, otherAnswer⟩ := answered others
    have sameGiven : Gives settings (settledPart settings others) object =
        Gives settings settled object := by
      funext feature
      unfold Gives
      simp only [sameTexts]
    rw [sameGiven] at otherOffers
    rw [otherAnswer, answerIs, otherOffers.unique offers]

/-- Two files give attributes to one object, one of them after its text has changed. -/
def overlappingRun : List Operation :=
  [.update ['a'] "A.old".toList, .update ['b'] "A [ LIST, head ]".toList,
    .update ['a'] "A.HEAD, A.head".toList]

/-- What the first text gave is gone, what both files give is offered once, and capitals lead. -/
theorem complete_attributes_overlappingRun :
    let reached := (empty .standard).run overlappingRun
    Completion.complete reached.settings reached.attributes reached.tags "x, A [\n ".toList 8 =
      .ok [.ofName false 1 "HEAD".toList, .ofName false 2 "LIST".toList,
        .ofName false 3 "head".toList] := by
  intro reached
  have current : UnionCurrent .standard overlappingRun := rfl
  have split : ("x, A [\n ".toList).take 8 =
      "x, ".toList ++ (['A'] ++ [' '] ++ '[' :: ['\n', ' ']) := by
    decide
  have gapBlank : ∀ c ∈ [' '], Text.isBlank c := List.forall_mem_singleton.mpr (by decide)
  have innerBlank : ∀ c ∈ ['\n', ' '], Text.isBlank c :=
    List.forall_mem_cons.mpr ⟨by decide, gapBlank⟩
  have name : IsName ['A'] := ⟨by decide, List.forall_mem_singleton.mpr (by decide)⟩
  obtain ⟨⟨names, offers, answered⟩, -⟩ :=
    complete_attributes .standard overlappingRun "x, A [\n ".toList 8 split
      (.bracket gapBlank innerBlank) name (by simp; decide) rfl (by decide)
  have known : reached.attributes.attributesFor ['A'] =
      ["LIST".toList, "HEAD".toList, "head".toList] := by
    decide
  have ranked : Offers ["HEAD".toList, "LIST".toList, "head".toList]
      (fun feature => [] <+: feature ∧ Gives .standard overlappingRun ['A'] feature) := by
    refine ⟨by decide, by decide, ?_⟩
    intro feature
    rw [← mem_attributesFor_iff_gives current, known]
    simp only [List.nil_prefix, true_and, List.mem_cons]
    exact or_left_comm
  rw [settledPart_of_current current] at offers
  rw [offers.unique ranked] at answered
  exact answered

/-- After the scan that ends at a file without a URI, an object has an attribute in a file that is
indexed, and completion does not offer it. -/
theorem complete_lacks_namelessFile :
    let reached := (empty .standard).run [.scan NamelessFile.tree NamelessFile.root]
    Gives .standard [.scan NamelessFile.tree NamelessFile.root] ['A'] ['x'] ∧
      reached.complete "A.".toList 0 2 = .ok [] := by
  intro reached
  have past : history .standard [.scan NamelessFile.tree NamelessFile.root] =
      Change.ofText NamelessFile.uri NamelessFile.text := by
    simp only [history_cons, changesOf, NamelessFile.scanOutcome_eq]
    rfl
  have arrived : reached = _ := NamelessFile.run_eq
  refine ⟨⟨NamelessFile.uri, NamelessFile.text, ?_, by decide +kernel⟩, ?_⟩
  · rw [past]
    decide +kernel
  · have unknown : reached.attributes.attributesFor ['A'] = [] := by
      rw [arrived]
      decide +kernel
    have standard : reached.settings = .standard := run_settings ..
    have name : IsName ['A'] := by decide
    have split : "A.".toList.take (Text.clampOffset "A.".toList 2) = [] ++ (['A'] ++ ['.']) := rfl
    show Completion.complete reached.settings reached.attributes reached.tags "A.".toList 2 = _
    rw [standard, complete_of_asks split .dot name (by simp) rfl (Nat.zero_le 0), unknown,
      List.filter_nil, attributeItems, rankNames, List.mergeSort_nil]
    rfl

end Workspace

end GrammarLens
