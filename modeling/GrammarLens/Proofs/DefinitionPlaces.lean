import GrammarLens.Proofs.DottedReferences
import GrammarLens.Proofs.Occurrences
import GrammarLens.Proofs.WordLookup
import Mathlib.Data.List.Forall2
import Mathlib.Tactic.Choose

/-!
Contract: where the definitions of a text stand.

Owns:
- stretches of a text whose characters are all of one class;
- the operator of a definition, and what the pattern of a definition matches before it;
- the names that operators define: whole runs, with blanks only up to the operator;
- the records of a text: one for each operator behind a name, in source order, each with an address
  that leads back to its name.

Does not own: what the documentation behind an operator is.

## Why every name is whole and no operator is missed

The pattern matches at every character of a name before an operator, not only at the first one. The
scan meets the first one before the others, because it passes over nothing but earlier matches, and
each of these ends in an operator. For the same reason no earlier match reaches into a name.
-/

namespace GrammarLens

/-! ## Stretches -/

namespace Text

/-- Every place from `start` up to `finish` holds a character of a class. -/
def IsStretch (belongs : Char → Bool) (text : Text) (start finish : Nat) : Prop :=
  ∀ place, start ≤ place → place < finish → ∃ c, text[place]? = some c ∧ belongs c

variable {belongs : Char → Bool}

theorem isStretch_iff {text : Text} {start finish : Nat} (inside : finish ≤ text.length) :
    text.IsStretch belongs start finish ↔ ∀ c ∈ text.slice start finish, belongs c := by
  constructor
  · intro stretch c member
    obtain ⟨index, found⟩ := List.mem_iff_getElem?.mp member
    rw [slice, List.getElem?_drop, List.getElem?_take] at found
    split at found
    · next short =>
      obtain ⟨d, there, holds⟩ := stretch (start + index) (Nat.le_add_right _ _) short
      obtain rfl := Option.some.inj (found.symm.trans there)
      exact holds
    · simp at found
  · intro whole place reached short
    have there := List.getElem?_eq_getElem (Nat.lt_of_lt_of_le short inside)
    exact ⟨_, there, whole _ (mem_slice there reached short)⟩

private theorem isStretch_append {run : Text} (whole : ∀ c ∈ run, belongs c) (before rest : Text) :
    (before ++ (run ++ rest)).IsStretch belongs before.length (before.length + run.length) := by
  rw [← List.append_assoc, isStretch_iff (by simp), slice_append]
  exact whole

end Text

/-! ## The pattern of a definition -/

/-- The operator `:=` stands at a place. -/
def OperatorAt (text : Text) (place : Nat) : Prop :=
  text[place]? = some ':' ∧ text[place + 1]? = some '='

theorem OperatorAt.lt_length {text : Text} {place : Nat} (assigned : OperatorAt text place) :
    place < text.length :=
  (List.getElem?_eq_some_iff.mp assigned.1).1

/-- Name characters, blanks and an operator, one right behind the other. -/
structure Assigns (text : Text) (start finish operator : Nat) : Prop where
  occupied : start < finish
  named : text.IsStretch isNameChar start finish
  reached : finish ≤ operator
  blank : text.IsStretch Text.isBlank finish operator
  assigned : OperatorAt text operator

private theorem assigns_append {name gap : Text} (isName : IsName name)
    (blank : ∀ c ∈ gap, Text.isBlank c) (before rest : Text) :
    Assigns (before ++ (name ++ (gap ++ ':' :: '=' :: rest))) before.length
      (before.length + name.length) (before.length + name.length + gap.length) where
  occupied := Nat.lt_add_of_pos_right (List.length_pos_iff.mpr isName.1)
  named := Text.isStretch_append isName.2 before _
  reached := Nat.le_add_right _ _
  blank := by
    rw [← List.append_assoc, ← List.length_append]
    exact Text.isStretch_append blank _ _
  assigned := by
    rw [← List.append_assoc, ← List.append_assoc, ← List.length_append, ← List.length_append,
      OperatorAt, List.getElem?_append_right (Nat.le_refl _),
      List.getElem?_append_right (Nat.le_add_right _ _), Nat.sub_self, Nat.add_sub_cancel_left]
    exact ⟨rfl, rfl⟩

theorem OperatorAt.drop_eq {text : Text} {place : Nat} (assigned : OperatorAt text place) :
    text.drop place = ':' :: '=' :: text.drop (place + 2) := by
  obtain ⟨inside, colon⟩ := List.getElem?_eq_some_iff.mp assigned.1
  obtain ⟨further, equals⟩ := List.getElem?_eq_some_iff.mp assigned.2
  rw [List.drop_eq_getElem_cons inside, List.drop_eq_getElem_cons further, colon, equals]

theorem Assigns.exists_split {text : Text} {start finish operator : Nat}
    (assigns : Assigns text start finish operator) :
    ∃ before name gap rest, text = before ++ (name ++ (gap ++ ':' :: '=' :: rest)) ∧
      IsName name ∧ (∀ c ∈ gap, Text.isBlank c) ∧ start = before.length ∧
      finish = start + name.length ∧ operator = finish + gap.length := by
  have occupied := assigns.occupied
  have reached := assigns.reached
  have inside := assigns.assigned.lt_length
  have front : text.take operator =
      text.take start ++ (text.slice start finish ++ text.slice finish operator) := by
    have whole : text.slice 0 operator = text.take operator := rfl
    have first : text.slice 0 start = text.take start := rfl
    rw [Text.slice_append_slice (Nat.le_of_lt occupied) reached, ← whole, ← first,
      Text.slice_append_slice (Nat.zero_le _) (by omega)]
  have nameLength : (text.slice start finish).length = finish - start :=
    Text.length_slice (by omega)
  have gapLength : (text.slice finish operator).length = operator - finish :=
    Text.length_slice (by omega)
  refine ⟨text.take start, text.slice start finish, text.slice finish operator,
    text.drop (operator + 2), ?_, ⟨?_, ?_⟩, ?_, ?_, by omega, by omega⟩
  · rw [← assigns.assigned.drop_eq, ← List.append_assoc (text.slice start finish),
      ← List.append_assoc, ← front, List.take_append_drop]
  · apply List.ne_nil_of_length_pos
    omega
  · exact (Text.isStretch_iff (by omega)).mp assigns.named
  · exact (Text.isStretch_iff (by omega)).mp assigns.blank
  · rw [List.length_take, Nat.min_eq_left (by omega)]

private theorem leadingDefinition?_append {name gap : Text} (isName : IsName name)
    (blank : ∀ c ∈ gap, Text.isBlank c) (rest : Text) :
    leadingDefinition? (name ++ (gap ++ ':' :: '=' :: rest)) =
      some (name, name.length + gap.length + 2) := by
  have ends : ∀ c, (gap ++ ':' :: '=' :: rest).head? = some c → isNameChar c = false := by
    intro c first
    cases gap with
    | nil =>
        obtain rfl := Option.some.inj first
        decide
    | cons d gap =>
        obtain rfl := Option.some.inj first
        exact not_isNameChar_of_isBlank (blank d List.mem_cons_self)
  have colon : ¬ Text.isBlank ':' := by decide
  have gapTaken : (gap ++ ':' :: '=' :: rest).takeWhile Text.isBlank = gap := by
    rw [List.takeWhile_append_of_pos blank, List.takeWhile_cons_of_neg colon, List.append_nil]
  have gapDropped : (gap ++ ':' :: '=' :: rest).dropWhile Text.isBlank = ':' :: '=' :: rest := by
    rw [List.dropWhile_append_of_pos blank, List.dropWhile_cons_of_neg colon]
  simp only [leadingDefinition?, isName.takeWhile_append ends, isName.dropWhile_append ends,
    gapTaken, gapDropped]
  rw [if_neg (by simpa using isName.1)]

/-- The pattern of a definition matches where name characters, blanks and an operator begin. -/
theorem leadingDefinition?_drop_iff {text name : Text} {start length : Nat} :
    leadingDefinition? (text.drop start) = some (name, length) ↔
      ∃ finish operator, Assigns text start finish operator ∧ name = text.slice start finish ∧
        start + length = operator + 2 := by
  constructor
  · intro leads
    obtain ⟨isName, gap, rest, split, blank, rfl⟩ := leadingDefinition?_eq_some leads
    have inside : start ≤ text.length := by
      by_contra outside
      rw [List.drop_eq_nil_of_le (by omega)] at split
      simp at split
    have whole : text = text.take start ++ (name ++ (gap ++ ':' :: '=' :: rest)) := by
      rw [← split, List.take_append_drop]
    have assigns := assigns_append isName blank (text.take start) rest
    have named := Text.slice_append (text.take start) name (gap ++ ':' :: '=' :: rest)
    rw [List.append_assoc] at named
    rw [← whole, List.length_take, Nat.min_eq_left inside] at assigns named
    exact ⟨_, _, assigns, named.symm, by omega⟩
  · rintro ⟨finish, operator, assigns, rfl, lengthIs⟩
    obtain ⟨before, name, gap, rest, rfl, isName, blank, rfl, rfl, rfl⟩ := assigns.exists_split
    have named := Text.slice_append before name (gap ++ ':' :: '=' :: rest)
    rw [List.append_assoc] at named
    rw [named, List.drop_left, leadingDefinition?_append isName blank]
    simp only [Option.some.injEq, Prod.mk.injEq, true_and]
    omega

/-! ## Defined names -/

/-- A name is defined by an operator: it is a whole run, and only blanks stand between the two. -/
structure Defines (text : Text) (start finish operator : Nat) : Prop where
  run : IsRun text start finish
  reached : finish ≤ operator
  blank : ∀ c ∈ text.slice finish operator, Text.isBlank c
  assigned : OperatorAt text operator

/-- An operator that a name character precedes, with only blanks between them. -/
def IsDefining (text : Text) (operator : Nat) : Prop :=
  OperatorAt text operator ∧
    ∃ finish c, finish ≤ operator ∧ (∀ d ∈ text.slice finish operator, Text.isBlank d) ∧
      text.before? finish = some c ∧ isNameChar c

section Places

variable {text : Text} {start finish operator : Nat}

/-- No name goes on behind a place from which only blanks lead up to an operator. -/
theorem OperatorAt.not_isNameChar (assigned : OperatorAt text operator)
    (reached : finish ≤ operator) (blank : ∀ c ∈ text.slice finish operator, Text.isBlank c)
    {c : Char} (next : text[finish]? = some c) : isNameChar c = false := by
  rcases Nat.eq_or_lt_of_le reached with rfl | before
  · obtain rfl := Option.some.inj (assigned.1.symm.trans next)
    decide
  · exact not_isNameChar_of_isBlank (blank c (Text.mem_slice next (Nat.le_refl _) before))

theorem Defines.assigns (defines : Defines text start finish operator) :
    Assigns text start finish operator where
  occupied := defines.run.occupied
  named := (Text.isStretch_iff defines.run.within).mpr defines.run.named
  reached := defines.reached
  blank := (Text.isStretch_iff (Nat.le_of_lt defines.assigned.lt_length)).mpr defines.blank
  assigned := defines.assigned

theorem Assigns.defines (assigns : Assigns text start finish operator)
    (begins : ∀ c, text.before? start = some c → isNameChar c = false) :
    Defines text start finish operator := by
  have inside := assigns.assigned.lt_length
  have reached := assigns.reached
  have blank := (Text.isStretch_iff (Nat.le_of_lt inside)).mp assigns.blank
  refine ⟨⟨assigns.occupied, by omega, ?_, begins, ?_⟩, reached, blank, assigns.assigned⟩
  · exact (Text.isStretch_iff (by omega)).mp assigns.named
  · intro c next
    exact assigns.assigned.not_isNameChar reached blank next

/-- A run does not begin inside what the pattern matches for another one. -/
theorem Assigns.le_of_isRun (assigns : Assigns text start finish operator) {first last : Nat}
    (run : IsRun text first last) (behind : start < first) : operator + 2 ≤ first := by
  by_contra inside
  obtain ⟨c, here, belongs⟩ :=
    (Text.isStretch_iff run.within).mpr run.named first (Nat.le_refl _) run.occupied
  by_cases named : first ≤ finish
  · -- The character before the run is one of the name.
    obtain ⟨d, there, alsoBelongs⟩ := assigns.named (first - 1) (by omega) (by omega)
    have previous : text.before? first = some d := by
      rw [show first = first - 1 + 1 by omega]
      exact there
    exact ne_of_isNameChar alsoBelongs (run.before d previous) rfl
  · -- The first character of the run is a blank or belongs to the operator.
    have other : isNameChar c = false := by
      rcases Nat.lt_trichotomy first operator with before | rfl | after
      · obtain ⟨d, there, blank⟩ := assigns.blank first (by omega) before
        obtain rfl := Option.some.inj (here.symm.trans there)
        exact not_isNameChar_of_isBlank blank
      · obtain rfl := Option.some.inj (here.symm.trans assigns.assigned.1)
        decide
      · rw [show first = operator + 1 by omega] at here
        obtain rfl := Option.some.inj (here.symm.trans assigns.assigned.2)
        decide
    exact ne_of_isNameChar belongs other rfl

theorem Assigns.operator_unique {last other : Nat} (left : Assigns text start finish operator)
    (right : Assigns text start last other) : operator = other := by
  have leads : ∀ {finish operator : Nat}, Assigns text start finish operator →
      leadingDefinition? (text.drop start) =
        some (text.slice start finish, operator + 2 - start) := by
    intro finish operator assigns
    have occupied := assigns.occupied
    have reached := assigns.reached
    exact leadingDefinition?_drop_iff.mpr ⟨finish, operator, assigns, rfl, by omega⟩
  have lengths := (Prod.mk.inj (Option.some.inj ((leads left).symm.trans (leads right)))).2
  have leftOccupied := left.occupied
  have rightOccupied := right.occupied
  have leftReached := left.reached
  have rightReached := right.reached
  omega

theorem IsDefining.exists_defines (defining : IsDefining text operator) :
    ∃ start finish, Defines text start finish operator := by
  obtain ⟨assigned, finish, c, reached, blank, previous, belongs⟩ := defining
  have inside : finish ≤ text.length := Nat.le_of_lt (Nat.lt_of_le_of_lt reached assigned.lt_length)
  let earlier := Text.dropTrailing isNameChar (text.take finish)
  let run := Text.trailing isNameChar (text.take finish)
  have front : earlier ++ run = text.take finish := Text.dropTrailing_append_trailing _ _
  have last : (earlier ++ run).getLast? = some c := by
    rw [front, ← Text.before?_eq_getLast?_take inside, previous]
  have name : IsName run := by
    refine ⟨?_, fun d member => Text.mem_trailing member⟩
    intro vacant
    rw [vacant, List.append_nil] at last
    exact ne_of_isNameChar belongs (Text.getLast?_dropTrailing last) rfl
  have found : IsRun (earlier ++ run ++ text.drop finish) earlier.length
      (earlier.length + run.length) := by
    apply isRun_append name
    · exact fun d ends => Text.getLast?_dropTrailing ends
    · intro d next
      rw [List.head?_drop] at next
      exact assigned.not_isNameChar reached blank next
  have length : earlier.length + run.length = finish := by
    rw [← List.length_append, front, List.length_take, Nat.min_eq_left inside]
  rw [front, List.take_append_drop, length] at found
  exact ⟨earlier.length, finish, found, reached, blank, assigned⟩

theorem Defines.isDefining (defines : Defines text start finish operator) :
    IsDefining text operator := by
  have occupied := defines.run.occupied
  obtain ⟨c, there, belongs⟩ := defines.assigns.named (finish - 1) (by omega) (by omega)
  refine ⟨defines.assigned, finish, c, defines.reached, defines.blank, ?_, belongs⟩
  rw [show finish = finish - 1 + 1 by omega]
  exact there

end Places

/-! ## The scan for definitions -/

/-- The definition at the start of a text, with its documentation and the length up to the end of
its operator. -/
def leadingRecord? (text : Text) : Option ((Text × Option Text) × Nat) :=
  (leadingDefinition? text).map fun (name, length) => ((name, DocBlock.find? text length), length)

theorem definedNames_eq (text : Text) :
    definedNames text = Text.occurrencesFrom leadingRecord? 0 0 text := rfl

section Scan

variable {text name : Text} {doc : Option Text} {start : Nat}

theorem leadingRecord?_drop_iff {length : Nat} :
    leadingRecord? (text.drop start) = some ((name, doc), length) ↔
      ∃ finish operator, Assigns text start finish operator ∧ name = text.slice start finish ∧
        start + length = operator + 2 ∧ doc = DocBlock.find? text (operator + 2) := by
  have shifted : ∀ length, DocBlock.find? (text.drop start) length =
      DocBlock.find? text (start + length) := by
    intro length
    rw [DocBlock.find?, DocBlock.find?, List.drop_drop]
  constructor
  · intro matched
    obtain ⟨⟨found, size⟩, leads, same⟩ := Option.map_eq_some_iff.mp matched
    obtain ⟨entry, rfl⟩ := Prod.mk.inj same
    obtain ⟨rfl, rfl⟩ := Prod.mk.inj entry
    obtain ⟨finish, operator, assigns, named, lengthIs⟩ := leadingDefinition?_drop_iff.mp leads
    exact ⟨finish, operator, assigns, named, lengthIs, by rw [shifted, lengthIs]⟩
  · rintro ⟨finish, operator, assigns, named, lengthIs, rfl⟩
    have leads := leadingDefinition?_drop_iff.mpr ⟨finish, operator, assigns, named, lengthIs⟩
    have found : leadingRecord? (text.drop start) =
        some ((name, DocBlock.find? (text.drop start) length), length) := by
      rw [leadingRecord?, leads]
      rfl
    rw [found, shifted, lengthIs]

theorem Assigns.extend {finish operator : Nat} {c : Char}
    (assigns : Assigns text (start + 1) finish operator) (here : text[start]? = some c)
    (belongs : isNameChar c) : Assigns text start finish operator where
  occupied := Nat.lt_of_succ_lt assigns.occupied
  named := by
    intro place reached short
    rcases Nat.eq_or_lt_of_le reached with rfl | later
    · exact ⟨c, here, belongs⟩
    · exact assigns.named place later short
  reached := assigns.reached
  blank := assigns.blank
  assigned := assigns.assigned

/-- The scan does not take up a name behind its first character. -/
theorem begins_of_mem_definedNames (member : (start, name, doc) ∈ definedNames text) :
    ∀ c, text.before? start = some c → isNameChar c = false := by
  intro c previous
  by_contra belongs
  rw [definedNames_eq, ← Nat.zero_add start, Text.mem_occurrencesFrom_iff] at member
  obtain ⟨inside, -, ⟨length, matched⟩, clear⟩ := member
  obtain ⟨finish, operator, assigns, -⟩ := leadingRecord?_drop_iff.mp matched
  have occupied := assigns.occupied
  have reached := assigns.reached
  cases start with
  | zero => simp [Text.before?] at previous
  | succ first =>
      have here : text[first]? = some c := previous
      have longer := assigns.extend here (by simpa using belongs)
      have taken := leadingRecord?_drop_iff.mpr ⟨finish, operator, longer, rfl,
        (by omega : first + (operator + 2 - first) = operator + 2), rfl⟩
      -- The longer name would reach over `start`, so the scan has not taken it either. Then an
      -- earlier entry ends between the two, in the middle of the name.
      have skipped : (0 + first, (text.slice first finish, DocBlock.find? text (operator + 2))) ∉
          Text.occurrencesFrom leadingRecord? 0 0 text := by
        intro occurs
        have past := clear first (Nat.lt_succ_self first) _ _ occurs taken
        omega
      apply skipped
      rw [Text.mem_occurrencesFrom_iff]
      refine ⟨by omega, Nat.zero_le _, ⟨_, taken⟩, ?_⟩
      intro earlier before value size present there
      have past := clear earlier (by omega) value size present there
      by_contra reaches
      obtain ⟨otherFinish, otherOperator, other, -, otherLength, -⟩ :=
        leadingRecord?_drop_iff.mp there
      have equals := other.assigned.2
      rw [show otherOperator + 1 = first by omega, here] at equals
      obtain rfl := Option.some.inj equals
      exact belongs (by decide)

/-- The scan finds exactly the names that operators define. -/
theorem mem_definedNames_iff :
    (start, name, doc) ∈ definedNames text ↔
      ∃ finish operator, Defines text start finish operator ∧ name = text.slice start finish ∧
        doc = DocBlock.find? text (operator + 2) := by
  constructor
  · intro member
    have begins := begins_of_mem_definedNames member
    rw [definedNames_eq, ← Nat.zero_add start, Text.mem_occurrencesFrom_iff] at member
    obtain ⟨-, -, ⟨length, matched⟩, -⟩ := member
    obtain ⟨finish, operator, assigns, named, -, documented⟩ := leadingRecord?_drop_iff.mp matched
    exact ⟨finish, operator, assigns.defines begins, named, documented⟩
  · rintro ⟨finish, operator, defines, named, documented⟩
    have occupied := defines.run.occupied
    have within := defines.run.within
    have reached := defines.reached
    rw [definedNames_eq, ← Nat.zero_add start, Text.mem_occurrencesFrom_iff]
    refine ⟨by omega, Nat.zero_le _, ⟨operator + 2 - start, ?_⟩, ?_⟩
    · apply leadingRecord?_drop_iff.mpr
      exact ⟨finish, operator, defines.assigns, named, by omega, documented⟩
    · intro earlier before value length member there
      obtain ⟨otherFinish, otherOperator, other, -, lengthIs, -⟩ := leadingRecord?_drop_iff.mp there
      rw [lengthIs]
      exact other.le_of_isRun defines.run before

end Scan

/-! ## The records of a text -/

/-- A record of the name between two offsets, with an address that leads back to them. -/
structure Records (text uri : Text) (start finish : Nat) (entry : DefinitionRecord) : Prop where
  name : entry.name = text.slice start finish
  uri : entry.uri = uri
  range : entry.range = text.rangeOf start finish
  start : text.offsetAt entry.range.line entry.range.character = start
  finish : text.offsetAt entry.range.endLine entry.range.endCharacter = finish

theorem IsRun.nameRange_eq {text : Text} {start finish : Nat} (run : IsRun text start finish) :
    nameRange text start (text.slice start finish) = text.rangeOf start finish := by
  simp only [nameRange, Text.rangeOf, run.positionAt_finish, Text.length_slice run.within,
    Int.natCast_add]

theorem IsRun.records {text : Text} {start finish : Nat} (run : IsRun text start finish)
    (uri : Text) (doc : Option Text) :
    Records text uri start finish
      ⟨text.slice start finish, uri, nameRange text start (text.slice start finish), doc⟩ where
  name := rfl
  uri := rfl
  range := run.nameRange_eq
  start := Text.offsetAt_positionAt run.isAddressable_start
  finish := by
    rw [run.nameRange_eq]
    exact Text.offsetAt_positionAt run.isAddressable_finish

/-- The definitions of a text are, in source order, one for each operator behind a name. Each
is recorded with the whole name, with an address that leads back to it, and with the documentation
that follows the operator. -/
theorem extractDefinitions_places (text uri : Text) :
    ∃ operators : List Nat, operators.Pairwise (· < ·) ∧
      (∀ operator, operator ∈ operators ↔ IsDefining text operator) ∧
      List.Forall₂
        (fun operator entry => ∃ start finish, Defines text start finish operator ∧
          Records text uri start finish entry ∧ entry.doc = DocBlock.find? text (operator + 2))
        operators (extractDefinitions text uri) := by
  have described : ∀ found ∈ definedNames text, ∃ operator finish,
      Defines text found.1 finish operator ∧ found.2.1 = text.slice found.1 finish ∧
        found.2.2 = DocBlock.find? text (operator + 2) := by
    intro found member
    obtain ⟨finish, operator, described⟩ := mem_definedNames_iff.mp member
    exact ⟨operator, finish, described⟩
  choose! operatorOf finishOf described using described
  refine ⟨(definedNames text).map operatorOf, ?_, ?_, ?_⟩
  · rw [List.pairwise_map]
    apply (Text.pairwise_occurrencesFrom leadingRecord? 0 0 text).imp_of_mem
    intro left right leftMember rightMember before
    have leftDefines := (described left leftMember).1
    have rightDefines := (described right rightMember).1
    have apart := leftDefines.assigns.le_of_isRun rightDefines.run before
    have occupied := rightDefines.run.occupied
    have reached := rightDefines.reached
    omega
  · intro operator
    rw [List.mem_map]
    constructor
    · rintro ⟨found, member, rfl⟩
      exact (described found member).1.isDefining
    · intro defining
      obtain ⟨start, finish, defines⟩ := defining.exists_defines
      have member := mem_definedNames_iff.mpr ⟨finish, operator, defines, rfl, rfl⟩
      exact ⟨_, member, (described _ member).1.assigns.operator_unique defines.assigns⟩
  · rw [extractDefinitions, List.forall₂_map_left_iff, List.forall₂_map_right_iff,
      List.forall₂_same]
    intro found member
    obtain ⟨defines, named, documented⟩ := described found member
    have recorded := defines.run.records uri found.2.2
    rw [← named] at recorded
    exact ⟨found.1, finishOf found, defines, recorded, documented⟩

end GrammarLens
