import GrammarLens.Proofs.AttributeCompletion

/-!
Contract: what the end of a text asks for, by a scan backwards and by patterns.

Owns:
- the longest run of a class at the end of a text, as a split of the text;
- the scan backwards from the end of a text, which splits off one run after the other;
- the patterns of the triggers, and where each matches first;
- the two agree for every pattern, the patterns exclude each other, and the trigger of a text is
  the first that they find.

Does not own: what is offered for a trigger.
-/

namespace GrammarLens

/-! ## Final runs -/

/-- The text ends in a run of a class, and the class ends where the run begins. -/
structure EndsIn (belongs : Char → Bool) (text head run : Text) : Prop where
  split : text = head ++ run
  whole : ∀ c ∈ run, belongs c
  maximal : ∀ c, head.getLast? = some c → belongs c = false

section FinalRuns

variable {belongs : Char → Bool} {text head run : Text}

theorem endsIn_iff :
    EndsIn belongs text head run ↔
      Text.dropTrailing belongs text = head ∧ Text.trailing belongs text = run := by
  constructor
  · rintro ⟨rfl, whole, maximal⟩
    rw [Text.dropTrailing_append maximal, Text.trailing_append maximal,
      Text.dropTrailing_of_forall whole, Text.trailing_of_forall whole, List.append_nil]
    exact ⟨rfl, rfl⟩
  · rintro ⟨rfl, rfl⟩
    exact ⟨(Text.dropTrailing_append_trailing belongs text).symm, fun _ => Text.mem_trailing,
      fun _ => Text.getLast?_dropTrailing⟩

theorem endsIn_trailing (belongs : Char → Bool) (text : Text) :
    EndsIn belongs text (Text.dropTrailing belongs text) (Text.trailing belongs text) :=
  endsIn_iff.mpr ⟨rfl, rfl⟩

theorem EndsIn.unique {otherHead otherRun : Text} (first : EndsIn belongs text head run)
    (second : EndsIn belongs text otherHead otherRun) : head = otherHead ∧ run = otherRun := by
  obtain ⟨rfl, rfl⟩ := endsIn_iff.mp first
  exact endsIn_iff.mp second

theorem EndsIn.length_lt_iff (ends : EndsIn belongs text head run) :
    head.length < text.length ↔ run ≠ [] := by
  rw [ends.split, List.length_append, Nat.lt_add_right_iff_pos, List.length_pos_iff]

/-- A run that follows a character of another class. -/
theorem endsIn_of_mark {mark : Char} (whole : ∀ c ∈ run, belongs c) (other : belongs mark = false) :
    EndsIn belongs (head ++ [mark] ++ run) (head ++ [mark]) run where
  split := rfl
  whole := whole
  maximal := by
    intro c last
    obtain rfl : mark = c := by simpa using last
    exact other

private theorem endsIn_nil_of_mark {mark : Char} (other : belongs mark = false) :
    EndsIn belongs (head ++ [mark]) (head ++ [mark]) [] := by
  have none : ∀ c ∈ ([] : Text), belongs c := List.forall_mem_nil _
  simpa using endsIn_of_mark none other

end FinalRuns

namespace Completion

/-- A text ends in a name, and the name is all of the final run. -/
structure EndsInName (text earlier name : Text) : Prop extends
    EndsIn isNameChar text earlier name where
  occupied : name ≠ []

section Names

variable {text earlier name : Text}

theorem EndsInName.isName (ends : EndsInName text earlier name) : IsName name :=
  ⟨ends.occupied, ends.whole⟩

theorem EndsInName.unique {otherEarlier otherName : Text} (first : EndsInName text earlier name)
    (second : EndsInName text otherEarlier otherName) :
    earlier = otherEarlier ∧ name = otherName :=
  first.toEndsIn.unique second.toEndsIn

theorem endsInName_append (named : IsName name)
    (stops : ∀ c, earlier.getLast? = some c → isNameChar c = false) :
    EndsInName (earlier ++ name) earlier name where
  split := rfl
  whole := named.2
  maximal := stops
  occupied := named.1

theorem EndsInName.exists_getLast? (ends : EndsInName text earlier name) :
    ∃ c, text.getLast? = some c ∧ isNameChar c := by
  obtain ⟨c, last, belongs⟩ := ends.isName.exists_getLast?
  refine ⟨c, ?_, belongs⟩
  rw [ends.split, List.getLast?_append_of_ne_nil _ ends.occupied, last]

/-- Blanks behind a name are all of the final run of blanks. -/
theorem EndsInName.endsIn_blank {gap : Text} (ends : EndsInName text earlier name)
    (blank : ∀ c ∈ gap, Text.isBlank c) : EndsIn Text.isBlank (text ++ gap) text gap where
  split := rfl
  whole := blank
  maximal := by
    intro c last
    obtain ⟨d, nameLast, belongs⟩ := ends.exists_getLast?
    obtain rfl := Option.some.inj (nameLast.symm.trans last)
    by_contra blankToo
    have other := not_isNameChar_of_isBlank (by simpa using blankToo)
    exact ne_of_isNameChar belongs other rfl

/-- A name that blanks set apart from what stands before them. -/
theorem endsInName_of_parting {parting : Text} (blank : ∀ c ∈ parting, Text.isBlank c)
    (parts : parting ≠ []) (named : IsName name) :
    EndsInName (earlier ++ parting ++ name) (earlier ++ parting) name := by
  apply endsInName_append named
  intro c last
  rw [List.getLast?_append_of_ne_nil _ parts] at last
  exact not_isNameChar_of_isBlank (blank c (List.mem_of_getLast? last))

private theorem nonempty?_eq_some_iff {value : Text} : nonempty? text = some value ↔
    text = value ∧ value ≠ [] := by
  rw [nonempty?]
  split
  · next empty =>
    have missing : text = [] := by simpa using empty
    simp only [reduceCtorEq, missing, false_iff, not_and, not_not]
    exact Eq.symm
  · next occupied =>
    have present : text ≠ [] := by simpa using occupied
    rw [Option.some.injEq]
    constructor
    · rintro rfl
      exact ⟨rfl, present⟩
    · exact And.left

theorem nonempty?_trailing_iff :
    nonempty? (Text.trailing isNameChar text) = some name ↔
      ∃ earlier, EndsInName text earlier name := by
  rw [nonempty?_eq_some_iff]
  constructor
  · rintro ⟨rfl, occupied⟩
    exact ⟨_, endsIn_trailing isNameChar text, occupied⟩
  · rintro ⟨earlier, ends⟩
    exact ⟨(endsIn_iff.mp ends.toEndsIn).2, ends.occupied⟩

end Names

/-! ## The scan backwards -/

/-- A text ends in the dot behind a name. -/
def EndsInDotted (text earlier object : Text) : Prop :=
  ∃ head, text = head ++ ['.'] ∧ EndsInName head earlier object

/-- What owns the bracket that follows a text: the name at its end or, where an ampersand stands
there, the name before the name that the ampersand follows. -/
inductive OwnsBracket (text earlier object : Text) : Prop
  | next {head gap : Text} (spaced : EndsIn Text.isBlank text head gap)
      (owner : EndsInName head earlier object) : OwnsBracket text earlier object
  | joined {head gap left leftGap parted conjunct owned parting : Text}
      (spaced : EndsIn Text.isBlank text (head ++ ['&']) gap)
      (joint : EndsIn Text.isBlank head left leftGap) (second : EndsInName left parted conjunct)
      (apart : EndsIn Text.isBlank parted owned parting) (parts : parting ≠ [])
      (owner : EndsInName owned earlier object) : OwnsBracket text earlier object

/-- What the end of a text asks for, read backwards, with the text before what is read. -/
inductive Scans (before earlier : Text) : Trigger → Prop
  | tag {start : Text}
      (typed : EndsIn isTagChar (Text.dropFinalNewline before) (earlier ++ ['#']) start) :
      Scans before earlier (.tags start)
  | dot {object : Text} (dotted : EndsInDotted (Text.dropFinalNewline before) earlier object) :
      Scans before earlier (.attributes object)
  | segment {head object start : Text}
      (typed : EndsInName (Text.dropFinalNewline before) head start)
      (dotted : EndsInDotted head earlier object) :
      Scans before earlier (.attributesStarting object start)
  | bracket {shown inner object : Text}
      (opened : EndsIn Text.isBlank before (shown ++ ['[']) inner)
      (owned : OwnsBracket shown earlier object) : Scans before earlier (.bracket object)

/-! ## Each test makes its scan -/

section Tests

variable {before text object : Text} {trigger : Trigger}

theorem tagTrigger?_eq_some_iff : tagTrigger? before = some trigger ↔
    ∃ earlier start, EndsIn isTagChar (Text.dropFinalNewline before) (earlier ++ ['#']) start ∧
      .tags start = trigger := by
  simp only [tagTrigger?, Option.ite_none_right_eq_some, Option.some.injEq,
    List.getLast?_eq_some_iff]
  constructor
  · rintro ⟨⟨earlier, split⟩, rfl⟩
    exact ⟨earlier, _, endsIn_iff.mpr ⟨split, rfl⟩, rfl⟩
  · rintro ⟨earlier, start, typed, rfl⟩
    obtain ⟨split, run⟩ := endsIn_iff.mp typed
    exact ⟨⟨earlier, split⟩, by rw [run]⟩

theorem dottedObject?_eq_some_iff :
    dottedObject? text = some object ↔ ∃ earlier, EndsInDotted text earlier object := by
  rw [dottedObject?, Option.ite_none_right_eq_some, nonempty?_trailing_iff,
    List.getLast?_eq_some_iff]
  constructor
  · rintro ⟨⟨head, rfl⟩, earlier, ends⟩
    rw [List.dropLast_concat] at ends
    exact ⟨earlier, head, rfl, ends⟩
  · rintro ⟨earlier, head, rfl, ends⟩
    rw [List.dropLast_concat]
    exact ⟨⟨head, rfl⟩, earlier, ends⟩

theorem dotTrigger?_eq_some_iff : dotTrigger? before = some trigger ↔
    ∃ object, (∃ earlier, EndsInDotted (Text.dropFinalNewline before) earlier object) ∧
      .attributes object = trigger := by
  simp only [dotTrigger?, Option.map_eq_some_iff, dottedObject?_eq_some_iff]

theorem segmentTrigger?_eq_some_iff : segmentTrigger? before = some trigger ↔
    ∃ head start, EndsInName (Text.dropFinalNewline before) head start ∧
      ∃ object, (∃ earlier, EndsInDotted head earlier object) ∧
        .attributesStarting object start = trigger := by
  simp only [segmentTrigger?, typedRun, bind, Option.bind_eq_some_iff, nonempty?_trailing_iff,
    dottedObject?_eq_some_iff, pure, Option.some.injEq]
  constructor
  · rintro ⟨start, ⟨head, typed⟩, object, dotted, rfl⟩
    rw [(endsIn_iff.mp typed.toEndsIn).1] at dotted
    exact ⟨head, start, typed, object, dotted, rfl⟩
  · rintro ⟨head, start, typed, object, dotted, rfl⟩
    refine ⟨start, ⟨head, typed⟩, object, ?_, rfl⟩
    rwa [(endsIn_iff.mp typed.toEndsIn).1]

/-- No name ends at an ampersand. -/
theorem not_endsInName_of_joint {head gap shown shownGap earlier : Text}
    (marked : EndsIn Text.isBlank text (head ++ ['&']) gap)
    (spaced : EndsIn Text.isBlank text shown shownGap) : ¬ EndsInName shown earlier object := by
  intro owner
  obtain ⟨c, last, belongs⟩ := owner.exists_getLast?
  obtain ⟨rfl, -⟩ := marked.unique spaced
  obtain rfl : '&' = c := by simpa using last
  exact absurd belongs (by decide)

private theorem bracketObject?_joined_iff {head gap : Text}
    (marked : EndsIn Text.isBlank text (head ++ ['&']) gap) :
    bracketObject? text = some object ↔ ∃ earlier, OwnsBracket text earlier object := by
  have joint := endsIn_trailing Text.isBlank head
  have second := endsIn_trailing isNameChar (Text.dropTrailing Text.isBlank head)
  have apart := endsIn_trailing Text.isBlank
    (Text.dropTrailing isNameChar (Text.dropTrailing Text.isBlank head))
  simp only [bracketObject?]
  rw [(endsIn_iff.mp marked).1, if_pos List.getLast?_concat, List.dropLast_concat,
    Option.ite_none_right_eq_some, nonempty?_trailing_iff, Bool.and_eq_true, decide_eq_true_eq,
    decide_eq_true_eq, second.length_lt_iff, apart.length_lt_iff]
  constructor
  · rintro ⟨⟨named, parts⟩, earlier, owner⟩
    exact ⟨earlier, .joined marked joint ⟨second, named⟩ apart parts owner⟩
  · rintro ⟨earlier, owns⟩
    cases owns with
    | next spaced owner => exact absurd owner (not_endsInName_of_joint marked spaced)
    | joined otherMarked otherJoint otherSecond otherApart parts owner =>
        obtain rfl := List.append_cancel_right (marked.unique otherMarked).1
        obtain ⟨rfl, -⟩ := otherJoint.unique joint
        obtain ⟨rfl, rfl⟩ := otherSecond.toEndsIn.unique second
        obtain ⟨rfl, rfl⟩ := otherApart.unique apart
        exact ⟨⟨otherSecond.occupied, parts⟩, earlier, owner⟩

private theorem bracketObject?_eq_some_iff :
    bracketObject? text = some object ↔ ∃ earlier, OwnsBracket text earlier object := by
  have spaced := endsIn_trailing Text.isBlank text
  by_cases joint : (Text.dropTrailing Text.isBlank text).getLast? = some '&'
  · obtain ⟨head, split⟩ := List.getLast?_eq_some_iff.mp joint
    rw [split] at spaced
    exact bracketObject?_joined_iff spaced
  · simp only [bracketObject?]
    rw [if_neg joint, nonempty?_trailing_iff]
    constructor
    · rintro ⟨earlier, owner⟩
      exact ⟨earlier, .next spaced owner⟩
    · rintro ⟨earlier, owns⟩
      cases owns with
      | next otherSpaced owner =>
          rw [(spaced.unique otherSpaced).1]
          exact ⟨earlier, owner⟩
      | joined marked _ _ _ _ _ =>
          rw [(spaced.unique marked).1] at joint
          exact absurd List.getLast?_concat joint

theorem bracketTrigger?_eq_some_iff : bracketTrigger? before = some trigger ↔
    ∃ shown inner, EndsIn Text.isBlank before (shown ++ ['[']) inner ∧
      ∃ object, (∃ earlier, OwnsBracket shown earlier object) ∧ .bracket object = trigger := by
  simp only [bracketTrigger?, Option.ite_none_right_eq_some, Option.map_eq_some_iff,
    bracketObject?_eq_some_iff, List.getLast?_eq_some_iff]
  constructor
  · rintro ⟨⟨shown, split⟩, object, owned, rfl⟩
    rw [split, List.dropLast_concat] at owned
    exact ⟨shown, _, endsIn_iff.mpr ⟨split, rfl⟩, object, owned, rfl⟩
  · rintro ⟨shown, inner, opened, object, owned, rfl⟩
    obtain ⟨split, -⟩ := endsIn_iff.mp opened
    rw [split, List.dropLast_concat]
    exact ⟨⟨shown, rfl⟩, object, owned, rfl⟩

end Tests

/-! ## One scan for a text -/

/-- The order in which the triggers are looked for. -/
def Trigger.rank : Trigger → Nat
  | .tags _ => 0
  | .attributes _ => 1
  | .attributesStarting _ _ => 2
  | .bracket _ => 3

/-- What a trigger leaves at the end of a text: the last character that is not of a name, and the
name characters behind it. -/
def Trigger.Leaves : Trigger → (mark : Char) → (run : Text) → Prop
  | .tags start, mark, run => mark = '#' ∧ run = start
  | .attributes _, mark, run => mark = '.' ∧ run = []
  | .attributesStarting _ start, mark, run => mark = '.' ∧ run = start ∧ start ≠ []
  | .bracket _, mark, run => (mark = '[' ∨ Text.isBlank mark) ∧ run = []

theorem Trigger.Leaves.rank_eq {first second : Trigger} {mark : Char} {run : Text}
    (one : first.Leaves mark run) (other : second.Leaves mark run) : first.rank = second.rank := by
  have hash : Text.isBlank '#' = false := by decide
  have dot : Text.isBlank '.' = false := by decide
  cases first <;> cases second <;> simp_all [Trigger.Leaves, Trigger.rank]

section Unique

variable {before text earlier otherEarlier object otherObject : Text} {trigger other : Trigger}

theorem EndsInDotted.unique (first : EndsInDotted text earlier object)
    (second : EndsInDotted text otherEarlier otherObject) :
    earlier = otherEarlier ∧ object = otherObject := by
  obtain ⟨head, rfl, ends⟩ := first
  obtain ⟨otherHead, same, otherEnds⟩ := second
  obtain rfl := List.append_cancel_right same
  exact ends.unique otherEnds

theorem OwnsBracket.unique (first : OwnsBracket text earlier object)
    (second : OwnsBracket text otherEarlier otherObject) :
    earlier = otherEarlier ∧ object = otherObject := by
  cases first with
  | next spaced owner =>
      cases second with
      | next otherSpaced otherOwner =>
          obtain ⟨rfl, -⟩ := spaced.unique otherSpaced
          exact owner.unique otherOwner
      | joined marked _ _ _ _ _ => exact absurd owner (not_endsInName_of_joint marked spaced)
  | joined marked joint conjunct apart _ owner =>
      cases second with
      | next spaced otherOwner => exact absurd otherOwner (not_endsInName_of_joint marked spaced)
      | joined otherMarked otherJoint otherConjunct otherApart _ otherOwner =>
          obtain rfl := List.append_cancel_right (marked.unique otherMarked).1
          obtain ⟨rfl, -⟩ := joint.unique otherJoint
          obtain ⟨rfl, -⟩ := conjunct.unique otherConjunct
          obtain ⟨rfl, -⟩ := apart.unique otherApart
          exact owner.unique otherOwner

theorem Scans.unique_of_rank (first : Scans before earlier trigger)
    (second : Scans before otherEarlier other) (same : trigger.rank = other.rank) :
    earlier = otherEarlier ∧ trigger = other := by
  cases first with
  | tag typed =>
      cases second with
      | tag otherTyped =>
          obtain ⟨head, rfl⟩ := typed.unique otherTyped
          exact ⟨List.append_cancel_right head, rfl⟩
      | _ => simp [Trigger.rank] at same
  | dot dotted =>
      cases second with
      | dot otherDotted =>
          obtain ⟨rfl, rfl⟩ := dotted.unique otherDotted
          exact ⟨rfl, rfl⟩
      | _ => simp [Trigger.rank] at same
  | segment typed dotted =>
      cases second with
      | segment otherTyped otherDotted =>
          obtain ⟨rfl, rfl⟩ := typed.unique otherTyped
          obtain ⟨rfl, rfl⟩ := dotted.unique otherDotted
          exact ⟨rfl, rfl⟩
      | _ => simp [Trigger.rank] at same
  | bracket opened owned =>
      cases second with
      | bracket otherOpened otherOwned =>
          obtain rfl := List.append_cancel_right (opened.unique otherOpened).1
          obtain ⟨rfl, rfl⟩ := owned.unique otherOwned
          exact ⟨rfl, rfl⟩
      | _ => simp [Trigger.rank] at same

theorem Scans.exists_leaves (scans : Scans before earlier trigger) :
    ∃ head mark run, EndsIn isNameChar (Text.dropFinalNewline before) (head ++ [mark]) run ∧
      trigger.Leaves mark run := by
  cases scans with
  | @tag start typed =>
      refine ⟨earlier, '#', start, ?_, rfl, rfl⟩
      rw [typed.split]
      exact endsIn_of_mark (fun c member => isNameChar_of_isTagChar (typed.whole c member))
        isNameChar_hash
  | dot dotted =>
      obtain ⟨head, split, -⟩ := dotted
      refine ⟨head, '.', [], ?_, rfl, rfl⟩
      rw [split]
      exact endsIn_nil_of_mark isNameChar_dot
  | @segment _ _ start typed dotted =>
      obtain ⟨head, rfl, -⟩ := dotted
      exact ⟨head, '.', start, typed.toEndsIn, rfl, rfl, typed.occupied⟩
  | @bracket shown inner _ opened _ =>
      have split : before = shown ++ '[' :: inner := by simpa using opened.split
      obtain ⟨mark, last, quiet⟩ := getLast?_dropFinalNewline_bracket shown opened.whole
      obtain ⟨head, visible⟩ := List.getLast?_eq_some_iff.mp last
      refine ⟨head, mark, [], ?_, quiet, rfl⟩
      rw [split, visible]
      apply endsIn_nil_of_mark
      rcases quiet with rfl | blank
      · decide
      · exact not_isNameChar_of_isBlank blank

/-- At most one trigger can be read off a text. -/
theorem Scans.unique (first : Scans before earlier trigger)
    (second : Scans before otherEarlier other) : earlier = otherEarlier ∧ trigger = other := by
  obtain ⟨head, mark, run, ends, leaves⟩ := first.exists_leaves
  obtain ⟨otherHead, otherMark, otherRun, otherEnds, otherLeaves⟩ := second.exists_leaves
  obtain ⟨sameHead, rfl⟩ := ends.unique otherEnds
  obtain rfl : mark = otherMark := by simpa using (List.append_inj' sameHead rfl).2
  exact first.unique_of_rank second (leaves.rank_eq otherLeaves)

end Unique

/-! ## Patterns -/

/-- What may follow the end that a pattern looks for. -/
def IsFinalNewline (final : Text) : Prop := final = [] ∨ final = ['\n']

/-- Blanks, a name and an ampersand: what may stand between an object and its bracket. -/
def IsConjunct (part : Text) : Prop :=
  ∃ parting name gap, part = parting ++ name ++ gap ++ ['&'] ∧ parting ≠ [] ∧
    (∀ c ∈ parting, Text.isBlank c) ∧ IsName name ∧ ∀ c ∈ gap, Text.isBlank c

/-- The texts that the pattern of each trigger matches, up to the end of the text. -/
inductive Trigger.Matches : Trigger → Text → Prop
  | tag {start final : Text} (tagged : ∀ c ∈ start, isTagChar c) (ends : IsFinalNewline final) :
      Matches (.tags start) ('#' :: start ++ final)
  | dot {object final : Text} (named : IsName object) (ends : IsFinalNewline final) :
      Matches (.attributes object) (object ++ ['.'] ++ final)
  | segment {object start final : Text} (named : IsName object) (started : IsName start)
      (ends : IsFinalNewline final) :
      Matches (.attributesStarting object start) (object ++ '.' :: start ++ final)
  | bracket {object part gap inner : Text} (named : IsName object)
      (optional : part = [] ∨ IsConjunct part) (gapBlank : ∀ c ∈ gap, Text.isBlank c)
      (innerBlank : ∀ c ∈ inner, Text.isBlank c) :
      Matches (.bracket object) (object ++ part ++ gap ++ '[' :: inner)

/-- The leftmost match of the pattern of a trigger, with the text before it. -/
structure Finds (before earlier : Text) (trigger : Trigger) : Prop where
  found : ∃ suffix, before = earlier ++ suffix ∧ trigger.Matches suffix
  leftmost : ∀ otherEarlier suffix (other : Trigger), before = otherEarlier ++ suffix →
    other.Matches suffix → other.rank = trigger.rank → earlier.length ≤ otherEarlier.length

section Patterns

variable {before earlier suffix : Text} {trigger : Trigger}

private theorem exists_finalNewline (text : Text) :
    ∃ final, IsFinalNewline final ∧ text = Text.dropFinalNewline text ++ final := by
  rw [Text.dropFinalNewline]
  split
  · next newline =>
    exact ⟨['\n'], .inr rfl, (List.dropLast_append_getLast? '\n' newline).symm⟩
  · exact ⟨[], .inl rfl, (List.append_nil text).symm⟩

/-- The newline that a pattern passes over, behind a mark and a run of its class. -/
theorem dropFinalNewline_append {belongs : Char → Bool} {head run final : Text} {mark : Char}
    (whole : ∀ c ∈ run, belongs c) (other : belongs '\n' = false) (visible : mark ≠ '\n')
    (ends : IsFinalNewline final) :
    Text.dropFinalNewline (head ++ [mark] ++ run ++ final) = head ++ [mark] ++ run := by
  rcases ends with rfl | rfl
  · rw [List.append_nil, Text.dropFinalNewline, if_neg]
    intro newline
    rw [List.append_assoc, List.singleton_append,
      List.getLast?_append_of_ne_nil _ (List.cons_ne_nil _ _)] at newline
    rcases List.mem_cons.mp (List.mem_of_getLast? newline) with rfl | member
    · exact visible rfl
    · have belongsToo := whole '\n' member
      simp [other] at belongsToo
  · rw [Text.dropFinalNewline, if_pos List.getLast?_concat, List.dropLast_concat]

/-- Of what a scan reads, the pattern matches all. -/
theorem Scans.matches (scans : Scans before earlier trigger) :
    ∃ suffix, before = earlier ++ suffix ∧ trigger.Matches suffix := by
  obtain ⟨final, ends, whole⟩ := exists_finalNewline before
  cases scans with
  | tag typed =>
      rw [typed.split] at whole
      exact ⟨_, by simpa using whole, .tag typed.whole ends⟩
  | dot dotted =>
      obtain ⟨head, split, owner⟩ := dotted
      rw [split, owner.split] at whole
      exact ⟨_, by simpa using whole, .dot owner.isName ends⟩
  | segment typed dotted =>
      obtain ⟨head, rfl, owner⟩ := dotted
      rw [typed.split, owner.split] at whole
      exact ⟨_, by simpa using whole, .segment owner.isName typed.isName ends⟩
  | bracket opened owned =>
      cases owned with
      | next spaced owner =>
          have split := opened.split
          rw [spaced.split, owner.split] at split
          exact ⟨_, by simpa using split,
            .bracket owner.isName (.inl rfl) spaced.whole opened.whole⟩
      | joined spaced joint second apart parts owner =>
          have split := opened.split
          rw [spaced.split, joint.split, second.split, apart.split, owner.split] at split
          have conjunct : IsConjunct _ :=
            ⟨_, _, _, rfl, parts, apart.whole, second.isName, joint.whole⟩
          exact ⟨_, by simpa using split,
            .bracket owner.isName (.inr conjunct) spaced.whole opened.whole⟩

/-- A match that no name runs into is what the scan reads. -/
theorem Trigger.Matches.scans (matched : trigger.Matches suffix)
    (stops : trigger.rank ≠ 0 → ∀ c, earlier.getLast? = some c → isNameChar c = false) :
    Scans (earlier ++ suffix) earlier trigger := by
  cases matched with
  | @tag start final tagged ends =>
      have split : earlier ++ ('#' :: start ++ final) =
          earlier ++ ['#'] ++ start ++ final := by simp
      apply Scans.tag
      rw [split, dropFinalNewline_append tagged (by decide) (by decide) ends]
      exact endsIn_of_mark tagged (by decide)
  | @dot object final named ends =>
      have split : earlier ++ (object ++ ['.'] ++ final) =
          earlier ++ object ++ ['.'] ++ [] ++ final := by simp
      have none : ∀ c ∈ ([] : Text), isNameChar c := List.forall_mem_nil _
      apply Scans.dot
      rw [split, dropFinalNewline_append none (by decide) (by decide) ends, List.append_nil]
      exact ⟨earlier ++ object, rfl, endsInName_append named (stops (Nat.succ_ne_zero _))⟩
  | @segment object start final named started ends =>
      have split : earlier ++ (object ++ '.' :: start ++ final) =
          earlier ++ object ++ ['.'] ++ start ++ final := by simp
      have visible : Text.dropFinalNewline (earlier ++ (object ++ '.' :: start ++ final)) =
          earlier ++ object ++ ['.'] ++ start := by
        rw [split, dropFinalNewline_append started.2 (by decide) (by decide) ends]
      have typed : EndsIn isNameChar (earlier ++ object ++ ['.'] ++ start) _ start :=
        endsIn_of_mark started.2 isNameChar_dot
      rw [← visible] at typed
      exact .segment ⟨typed, started.1⟩
        ⟨earlier ++ object, rfl, endsInName_append named (stops (Nat.succ_ne_zero _))⟩
  | @bracket object part gap inner named optional gapBlank innerBlank =>
      have owner := endsInName_append named (stops (Nat.succ_ne_zero _))
      have split : earlier ++ (object ++ part ++ gap ++ '[' :: inner) =
          (earlier ++ object ++ part ++ gap) ++ ['['] ++ inner := by simp
      rw [split]
      apply Scans.bracket (endsIn_of_mark innerBlank (by decide))
      rcases optional with rfl | ⟨parting, name, left, rfl, parts, partingBlank, joined, leftBlank⟩
      · rw [List.append_nil]
        exact .next (owner.endsIn_blank gapBlank) owner
      · have second : EndsInName (earlier ++ object ++ parting ++ name) _ name :=
          endsInName_of_parting partingBlank parts joined
        have whole : earlier ++ object ++ (parting ++ name ++ left ++ ['&']) ++ gap =
            earlier ++ object ++ parting ++ name ++ left ++ ['&'] ++ gap := by simp
        rw [whole]
        exact .joined (endsIn_of_mark gapBlank (by decide)) (second.endsIn_blank leftBlank) second
          (owner.endsIn_blank partingBlank) parts owner

/-- A name that runs into a match is matched with it. -/
theorem Trigger.Matches.extend (matched : trigger.Matches suffix) (ranked : trigger.rank ≠ 0)
    {run : Text} (named : ∀ c ∈ run, isNameChar c) :
    ∃ other : Trigger, other.rank = trigger.rank ∧ other.Matches (run ++ suffix) := by
  have extended : ∀ {object}, IsName object → IsName (run ++ object) := by
    intro object isName
    refine ⟨List.append_ne_nil_of_right_ne_nil run isName.1, ?_⟩
    exact List.forall_mem_append.mpr ⟨named, isName.2⟩
  cases matched with
  | tag tagged ends => exact absurd rfl ranked
  | @dot object final isName ends =>
      exact ⟨.attributes (run ++ object), rfl, by simpa using Matches.dot (extended isName) ends⟩
  | @segment object start final isName started ends =>
      exact ⟨.attributesStarting (run ++ object) start, rfl,
        by simpa using Matches.segment (extended isName) started ends⟩
  | @bracket object part gap inner isName optional gapBlank innerBlank =>
      exact ⟨.bracket (run ++ object), rfl,
        by simpa using Matches.bracket (extended isName) optional gapBlank innerBlank⟩

/-- The leftmost match of a pattern is what the scan reads. -/
theorem finds_iff_scans : Finds before earlier trigger ↔ Scans before earlier trigger := by
  constructor
  · rintro ⟨⟨suffix, rfl, matched⟩, leftmost⟩
    apply matched.scans
    intro ranked c last
    -- A name character before the match would begin a longer one.
    by_contra belongs
    obtain ⟨head, rfl⟩ := List.getLast?_eq_some_iff.mp last
    have named : ∀ d ∈ [c], isNameChar d := by simpa using belongs
    obtain ⟨other, same, longer⟩ := matched.extend ranked named
    have bound := leftmost head ([c] ++ suffix) other (by simp) longer same
    rw [List.length_append, List.length_singleton] at bound
    omega
  · intro scans
    refine ⟨scans.matches, ?_⟩
    intro otherEarlier suffix other split matched same
    by_cases ranked : other.rank = 0
    · have rescanned : Scans (otherEarlier ++ suffix) otherEarlier other :=
        matched.scans (absurd ranked)
      rw [← split] at rescanned
      rw [(scans.unique_of_rank rescanned same.symm).1]
    · -- The whole name that runs into the other match is matched where the scan stops.
      have ends := endsIn_trailing isNameChar otherEarlier
      obtain ⟨longest, sameRank, longer⟩ := matched.extend ranked ends.whole
      have rescanned := longer.scans fun _ => ends.maximal
      rw [← List.append_assoc, ← ends.split, ← split] at rescanned
      obtain ⟨rfl, -⟩ := scans.unique_of_rank rescanned (same.symm.trans sameRank.symm)
      calc
        _ ≤ (Text.dropTrailing isNameChar otherEarlier ++
            Text.trailing isNameChar otherEarlier).length := by simp
        _ = otherEarlier.length := by rw [← ends.split]

end Patterns

/-! ## The trigger of a text -/

/-- The first trigger, in the order in which they are looked for, that is found at all. -/
def IsFirst (found : Trigger → Prop) : Option Trigger → Prop
  | some trigger => found trigger ∧ ∀ other : Trigger, other.rank < trigger.rank → ¬ found other
  | none => ∀ trigger, ¬ found trigger

private theorem exists_scans_of_trigger? {before : Text} {trigger : Trigger}
    (triggered : trigger? before = some trigger) : ∃ earlier, Scans before earlier trigger := by
  simp only [trigger?, Option.orElse_eq_orElse, Option.orElse_eq_or, Option.or_eq_some_iff,
    tagTrigger?_eq_some_iff, dotTrigger?_eq_some_iff, segmentTrigger?_eq_some_iff,
    bracketTrigger?_eq_some_iff] at triggered
  rcases triggered with tag | ⟨-, dot | ⟨-, segment | ⟨-, bracket⟩⟩⟩
  · obtain ⟨earlier, start, typed, rfl⟩ := tag
    exact ⟨earlier, .tag typed⟩
  · obtain ⟨object, ⟨earlier, dotted⟩, rfl⟩ := dot
    exact ⟨earlier, .dot dotted⟩
  · obtain ⟨head, start, typed, object, ⟨earlier, dotted⟩, rfl⟩ := segment
    exact ⟨earlier, .segment typed dotted⟩
  · obtain ⟨shown, inner, opened, object, ⟨earlier, owned⟩, rfl⟩ := bracket
    exact ⟨earlier, .bracket opened owned⟩

private theorem trigger?_ne_none_of_scans {before earlier : Text} {trigger : Trigger}
    (scans : Scans before earlier trigger) : trigger? before ≠ none := by
  intro missing
  simp only [trigger?, Option.orElse_eq_orElse, Option.orElse_eq_or, Option.or_eq_none_iff]
    at missing
  obtain ⟨noTag, noDot, noSegment, noBracket⟩ := missing
  cases scans with
  | tag typed =>
      have found := tagTrigger?_eq_some_iff.mpr ⟨earlier, _, typed, rfl⟩
      simp [noTag] at found
  | dot dotted =>
      have found := dotTrigger?_eq_some_iff.mpr ⟨_, ⟨earlier, dotted⟩, rfl⟩
      simp [noDot] at found
  | segment typed dotted =>
      have found := segmentTrigger?_eq_some_iff.mpr ⟨_, _, typed, _, ⟨earlier, dotted⟩, rfl⟩
      simp [noSegment] at found
  | bracket opened owned =>
      have found := bracketTrigger?_eq_some_iff.mpr ⟨_, _, opened, _, ⟨earlier, owned⟩, rfl⟩
      simp [noBracket] at found

theorem trigger?_eq_some_iff {before : Text} {trigger : Trigger} :
    trigger? before = some trigger ↔ ∃ earlier, Scans before earlier trigger := by
  refine ⟨exists_scans_of_trigger?, ?_⟩
  rintro ⟨earlier, scans⟩
  obtain ⟨other, triggered⟩ := Option.ne_none_iff_exists'.mp (trigger?_ne_none_of_scans scans)
  obtain ⟨otherEarlier, otherScans⟩ := exists_scans_of_trigger? triggered
  rw [triggered, (scans.unique otherScans).2]

private theorem trigger?_eq_iff_isFirst {before : Text} {answer : Option Trigger} :
    trigger? before = answer ↔
      IsFirst (fun trigger => ∃ earlier, Scans before earlier trigger) answer := by
  constructor
  · rintro rfl
    cases triggered : trigger? before with
    | none =>
        intro trigger scanned
        rw [trigger?_eq_some_iff.mpr scanned] at triggered
        simp at triggered
    | some trigger =>
        refine ⟨trigger?_eq_some_iff.mp triggered, ?_⟩
        intro other earlierRank scanned
        have same := triggered.symm.trans (trigger?_eq_some_iff.mpr scanned)
        rw [Option.some.inj same] at earlierRank
        exact Nat.lt_irrefl _ earlierRank
  · intro first
    cases answer with
    | none =>
        apply Option.eq_none_iff_forall_ne_some.mpr
        intro trigger triggered
        exact first trigger (trigger?_eq_some_iff.mp triggered)
    | some trigger => exact trigger?_eq_some_iff.mpr first.1

/-- For every text, the leftmost match of each pattern is what the scan backwards reads, the trigger
is the first of these matches in the order of the patterns, and it is the only one: whatever the
scan reads is the trigger. -/
theorem trigger_eq_scan (before : Text) :
    (∀ earlier trigger, Finds before earlier trigger ↔ Scans before earlier trigger) ∧
      (∀ answer, trigger? before = answer ↔
        IsFirst (fun trigger => ∃ earlier, Finds before earlier trigger) answer) ∧
      ∀ trigger, trigger? before = some trigger ↔ ∃ earlier, Scans before earlier trigger := by
  refine ⟨fun _ _ => finds_iff_scans, fun answer => ?_, fun _ => trigger?_eq_some_iff⟩
  simp only [finds_iff_scans]
  exact trigger?_eq_iff_isFirst

example : trigger? "x head tail & [ \n".toList = some (.bracket "head".toList) := by decide

end Completion

end GrammarLens
