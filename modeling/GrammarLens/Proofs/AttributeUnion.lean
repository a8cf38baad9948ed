import GrammarLens.Proofs.NameShape
import GrammarLens.Proofs.ScanReport
import Mathlib.Data.List.Induction
import Mathlib.Data.List.Nodup

/-!
Contract: the attribute maps of a workspace after any run of operations.

Owns:
- the laws of attribute maps: what an object has after attributes are recorded and after
  maps are united;
- proper maps, in which every object stands once and has an attribute;
- the text that a history leaves indexed under a file;
- the file maps and the union of attributes after a run.
-/

namespace GrammarLens

/-! ## Attribute maps -/

namespace AttributeMap

theorem mem_foldl_insert {names present : List Text} {name : Text} :
    name ∈ names.foldl (fun known other => known.insert other) present ↔
      name ∈ present ∨ name ∈ names := by
  induction names generalizing present with
  | nil => simp
  | cons first rest inductionHypothesis =>
      rw [List.foldl_cons, inductionHypothesis, List.mem_insert_iff, List.mem_cons]
      constructor
      · rintro ((same | old) | later)
        · exact .inr (.inl same)
        · exact .inl old
        · exact .inr (.inr later)
      · rintro (old | same | later)
        · exact .inl (.inr old)
        · exact .inl (.inl same)
        · exact .inr later

private theorem nodup_foldl_insert (names : List Text) {present : List Text}
    (once : present.Nodup) :
    (names.foldl (fun known other => known.insert other) present).Nodup := by
  induction names generalizing present with
  | nil => exact once
  | cons first rest inductionHypothesis => exact inductionHypothesis (List.Nodup.insert once)

theorem attributes_addAll (known : AttributeMap) (object other : Text) (names : List Text) :
    attributes (addAll known object names) other =
      if object = other then
        names.foldl (fun present name => present.insert name) (attributes known object)
      else attributes known other := by
  unfold addAll
  rw [attributes, Table.find?_put]
  by_cases same : object = other
  · simp [same]
  · simp [same, attributes]

/-- Recording attributes gives them to their object and leaves every other object alone. -/
theorem mem_attributes_addAll {known : AttributeMap} {object other name : Text}
    {names : List Text} :
    name ∈ attributes (addAll known object names) other ↔
      name ∈ attributes known other ∨ object = other ∧ name ∈ names := by
  rw [attributes_addAll]
  by_cases same : object = other
  · simp [same, mem_foldl_insert]
  · simp [same]

/-- A map in which every object stands once, has at least one attribute, and none twice. -/
structure IsProper (known : AttributeMap) : Prop where
  objects : known.keys.Nodup
  inhabited : ∀ object, known.find? object ≠ some []
  once : ∀ object, (attributes known object).Nodup

theorem isProper_empty : IsProper Table.empty where
  objects := List.nodup_nil
  inhabited := by simp
  once := by simp [attributes]

theorem IsProper.addAll {known : AttributeMap} (proper : IsProper known) (object : Text)
    {names : List Text} (occupied : names ≠ []) : IsProper (addAll known object names) where
  objects := Table.nodup_keys_put proper.objects _ _
  inhabited := by
    intro other
    unfold AttributeMap.addAll
    rw [Table.find?_put]
    split
    · obtain ⟨first, member⟩ := List.exists_mem_of_ne_nil names occupied
      intro vanished
      have present : first ∈ names.foldl (fun known name => known.insert name)
          (attributes known object) := mem_foldl_insert.mpr (.inr member)
      rw [Option.some.inj vanished] at present
      simp at present
    · exact proper.inhabited other
  once := by
    intro other
    rw [attributes_addAll]
    split
    · exact nodup_foldl_insert names (proper.once object)
    · exact proper.once other

theorem mem_attributes_addPairs {known : AttributeMap} {pairs : List (Text × Text)}
    {object name : Text} :
    name ∈ attributes (addPairs known pairs) object ↔
      name ∈ attributes known object ∨ (object, name) ∈ pairs := by
  induction pairs generalizing known with
  | nil => simp [addPairs]
  | cons pair rest inductionHypothesis =>
      obtain ⟨owner, feature⟩ := pair
      change name ∈ attributes (addPairs (add known owner feature) rest) object ↔ _
      rw [inductionHypothesis, add, mem_attributes_addAll, List.mem_singleton, List.mem_cons,
        Prod.mk.injEq, or_assoc, @eq_comm _ owner object]

theorem IsProper.addPairs {known : AttributeMap} (proper : IsProper known)
    (pairs : List (Text × Text)) : IsProper (addPairs known pairs) := by
  induction pairs generalizing known with
  | nil => exact proper
  | cons pair rest inductionHypothesis =>
      exact inductionHypothesis (proper.addAll pair.1 (by simp))

/-- In such a map the objects are those that have an attribute. -/
theorem IsProper.mem_keys_iff {known : AttributeMap} (proper : IsProper known) {object : Text} :
    object ∈ known.keys ↔ ∃ name, name ∈ attributes known object := by
  rw [Table.mem_keys_iff, attributes]
  constructor
  · intro stored
    obtain ⟨names, found⟩ := stored
    rw [found]
    apply List.exists_mem_of_ne_nil
    intro vacant
    exact proper.inhabited object (vacant ▸ found)
  · intro described
    cases found : known.find? object with
    | none => simp [found] at described
    | some names => exact ⟨names, rfl⟩

/-! ## Unions -/

private theorem mem_attributes_foldl_addAll {entries : List (Text × List Text)}
    {known : AttributeMap} {object name : Text} :
    name ∈ attributes (entries.foldl (fun current entry => addAll current entry.1 entry.2) known)
        object ↔
      name ∈ attributes known object ∨ ∃ names, (object, names) ∈ entries ∧ name ∈ names := by
  induction entries generalizing known with
  | nil => simp
  | cons entry rest inductionHypothesis =>
      obtain ⟨owner, given⟩ := entry
      rw [List.foldl_cons, inductionHypothesis, mem_attributes_addAll]
      constructor
      · rintro ((old | ⟨rfl, here⟩) | ⟨names, later, member⟩)
        · exact .inl old
        · exact .inr ⟨given, List.mem_cons_self, here⟩
        · exact .inr ⟨names, List.mem_cons_of_mem _ later, member⟩
      · rintro (old | ⟨names, present, member⟩)
        · exact .inl (.inl old)
        · rcases List.mem_cons.mp present with same | later
          · obtain ⟨rfl, rfl⟩ := Prod.mk.inj same
            exact .inl (.inr ⟨rfl, member⟩)
          · exact .inr ⟨names, later, member⟩

private theorem mem_attributes_iff_entry {known : AttributeMap} (proper : IsProper known)
    {object name : Text} :
    name ∈ attributes known object ↔
      ∃ names, (object, names) ∈ known.entries ∧ name ∈ names := by
  simp only [Table.mem_entries_iff proper.objects, attributes]
  cases known.find? object with
  | none => simp
  | some names => simp

private theorem mem_attributes_union {left right : AttributeMap} (proper : IsProper right)
    {object name : Text} :
    name ∈ attributes (union left right) object ↔
      name ∈ attributes left object ∨ name ∈ attributes right object := by
  rw [union, mem_attributes_foldl_addAll, ← mem_attributes_iff_entry proper]

theorem IsProper.union {left right : AttributeMap} (leftProper : IsProper left)
    (rightProper : IsProper right) : IsProper (union left right) := by
  have occupied : ∀ entry ∈ right.entries, entry.2 ≠ [] := by
    intro entry member vanished
    have found := (Table.mem_entries_iff rightProper.objects).mp member
    exact rightProper.inhabited entry.1 (vanished ▸ found)
  have general : ∀ (entries : List (Text × List Text)) (known : AttributeMap),
      (∀ entry ∈ entries, entry.2 ≠ []) → IsProper known →
      IsProper (entries.foldl (fun current entry => AttributeMap.addAll current entry.1 entry.2)
        known) := by
    intro entries
    induction entries with
    | nil => exact fun _ _ proper => proper
    | cons entry rest inductionHypothesis =>
        intro known given proper
        apply inductionHypothesis
        · exact fun other member => given other (List.mem_cons_of_mem _ member)
        · exact proper.addAll entry.1 (given entry List.mem_cons_self)
  exact general right.entries left occupied leftProper

end AttributeMap

/-! ## What extraction records -/

private theorem isProper_extractAttributes (text : Text) :
    AttributeMap.IsProper (extractAttributes text) :=
  (AttributeMap.isProper_empty.addPairs _).addPairs _

theorem mem_attributes_dottedMap_iff {text object feature : Text} :
    feature ∈ AttributeMap.attributes (dottedMap text) object ↔
      (object, feature) ∈ dottedReferences text := by
  rw [dottedMap, AttributeMap.mem_attributes_addPairs]
  exact or_iff_right (by simp [AttributeMap.attributes])

theorem mem_attributes_extractAttributes {text object name : Text} :
    name ∈ AttributeMap.attributes (extractAttributes text) object ↔
      (object, name) ∈ dottedReferences text ∨
        (object, name) ∈ bracketedAttributes (tokenizeCode text) := by
  rw [extractAttributes, AttributeMap.mem_attributes_addPairs, mem_attributes_dottedMap_iff]

/-- Every attribute that a text gives to an object is a name. -/
theorem isName_of_mem_extractAttributes {text object name : Text}
    (member : name ∈ AttributeMap.attributes (extractAttributes text) object) : IsName name := by
  rcases mem_attributes_extractAttributes.mp member with dotted | bracketed
  · exact (isName_of_mem_dottedReferences dotted).2
  · exact isName_of_mem_bracketedAttributes bracketed

/-! ## The union of all files -/

namespace AttributeIndex

private theorem mem_attributes_unionOf {maps : List AttributeMap}
    (proper : ∀ known ∈ maps, AttributeMap.IsProper known) {object name : Text} :
    name ∈ AttributeMap.attributes (unionOf maps) object ↔
      ∃ known ∈ maps, name ∈ AttributeMap.attributes known object := by
  have general : ∀ start : AttributeMap,
      name ∈ AttributeMap.attributes (maps.foldl AttributeMap.union start) object ↔
        name ∈ AttributeMap.attributes start object ∨
          ∃ known ∈ maps, name ∈ AttributeMap.attributes known object := by
    induction maps with
    | nil => simp
    | cons first rest inductionHypothesis =>
        intro start
        have restProper : ∀ known ∈ rest, AttributeMap.IsProper known :=
          fun known member => proper known (List.mem_cons_of_mem _ member)
        rw [List.foldl_cons, inductionHypothesis restProper,
          AttributeMap.mem_attributes_union (proper first List.mem_cons_self), or_assoc]
        simp only [List.mem_cons, exists_eq_or_imp]
  rw [unionOf, general]
  simp [AttributeMap.attributes]

private theorem isProper_unionOf {maps : List AttributeMap}
    (proper : ∀ known ∈ maps, AttributeMap.IsProper known) :
    AttributeMap.IsProper (unionOf maps) := by
  have general : ∀ start : AttributeMap, AttributeMap.IsProper start →
      AttributeMap.IsProper (maps.foldl AttributeMap.union start) := by
    induction maps with
    | nil => exact fun _ startProper => startProper
    | cons first rest inductionHypothesis =>
        intro start startProper
        apply inductionHypothesis
        · exact fun known member => proper known (List.mem_cons_of_mem _ member)
        · exact startProper.union (proper first List.mem_cons_self)
  exact general _ AttributeMap.isProper_empty

end AttributeIndex

/-! ## File maps after a history -/

namespace Change

/-- Whether a change sets or removes the attributes of a file. -/
def concerns (uri : Text) : Change → Bool
  | .indexed other _ => other = uri
  | .removed other => other = uri
  | .tagged _ _ => false

/-- The text that a change leaves indexed; a removal leaves none. -/
def text? : Change → Option Text
  | .indexed _ text => some text
  | .removed _ | .tagged _ _ => none

end Change

/-- The text that a history leaves indexed under a file: that of the last change which concerns
the file, unless that change is a removal. -/
def lastText? (uri : Text) (changes : List Change) : Option Text :=
  (changes.filter (Change.concerns uri)).getLast?.bind Change.text?

theorem lastText?_concat (uri : Text) (changes : List Change) (change : Change) :
    lastText? uri (changes ++ [change]) =
      if change.concerns uri then change.text? else lastText? uri changes := by
  unfold lastText?
  rw [List.filter_append, List.getLast?_append]
  by_cases concerned : change.concerns uri
  · simp [concerned]
  · simp [concerned]

namespace Tables

/-- Tables in which nothing has been recorded. -/
def empty : Tables := ⟨.empty, .empty, .empty, .empty⟩

theorem afterAll_concat (tables : Tables) (changes : List Change) (change : Change) :
    tables.afterAll (changes ++ [change]) = (tables.afterAll changes).after change := by
  rw [afterAll_append]
  rfl

/-- A file has the attributes of the text that the history leaves indexed under it. -/
theorem files_afterAll (changes : List Change) (uri : Text) :
    (empty.afterAll changes).files.find? uri =
      (lastText? uri changes).map extractAttributes := by
  induction changes using List.reverseRecOn with
  | nil => rfl
  | append_singleton changes change inductionHypothesis =>
      rw [afterAll_concat, lastText?_concat]
      cases change with
      | indexed other text =>
          simp only [after, Table.find?_put, inductionHypothesis, Change.concerns, Change.text?,
            beq_iff_eq, decide_eq_true_eq]
          split <;> rfl
      | removed other =>
          simp only [after, Table.find?_erase, inductionHypothesis, Change.concerns, Change.text?,
            beq_iff_eq, decide_eq_true_eq]
          split <;> rfl
      | tagged text source => exact inductionHypothesis

theorem nodup_files_afterAll (changes : List Change) :
    (empty.afterAll changes).files.keys.Nodup := by
  induction changes using List.reverseRecOn with
  | nil => exact List.nodup_nil
  | append_singleton changes change inductionHypothesis =>
      rw [afterAll_concat]
      cases change with
      | indexed other text => exact Table.nodup_keys_put inductionHypothesis _ _
      | removed other => exact Table.nodup_keys_erase inductionHypothesis _
      | tagged text source => exact inductionHypothesis

end Tables

namespace Workspace

theorem run_empty_tables (settings : Settings) (operations : List Operation) :
    ((empty settings).run operations).tables =
      Tables.empty.afterAll (history settings operations) :=
  run_tables (empty settings) operations

section Run

variable (settings : Settings) (operations : List Operation)

theorem run_files (uri : Text) :
    ((empty settings).run operations).attributes.files.find? uri =
      (lastText? uri (history settings operations)).map extractAttributes := by
  rw [← Tables.files_afterAll, ← run_empty_tables]
  rfl

theorem run_nodup_files : ((empty settings).run operations).attributes.files.keys.Nodup := by
  have once := Tables.nodup_files_afterAll (history settings operations)
  rwa [← run_empty_tables] at once

/-- The map of every file is the one of some text. -/
theorem run_mem_values {known : AttributeMap}
    (member : known ∈ ((empty settings).run operations).attributes.files.values) :
    ∃ text, known = extractAttributes text := by
  obtain ⟨uri, found⟩ := (Table.mem_values_iff (run_nodup_files settings operations)).mp member
  rw [run_files] at found
  obtain ⟨text, -, rfl⟩ := Option.map_eq_some_iff.mp found
  exact ⟨text, rfl⟩

theorem run_isProper_values :
    ∀ known ∈ ((empty settings).run operations).attributes.files.values,
      AttributeMap.IsProper known := by
  intro known member
  obtain ⟨text, rfl⟩ := run_mem_values settings operations member
  exact isProper_extractAttributes text

end Run

section Union

variable (settings : Settings) (operations : List Operation)

/-- The union of attributes is that of the files which the settled part of the run leaves. -/
theorem run_mem_attributesFor {object name : Text} :
    name ∈ ((empty settings).run operations).attributes.attributesFor object ↔
      ∃ uri known,
        ((empty settings).run (settledPart settings operations)).attributes.files.find? uri =
          some known ∧ name ∈ AttributeMap.attributes known object := by
  have united : ((empty settings).run (settledPart settings operations)).IsUnited :=
    run_isUnited (unionCurrent_settledPart settings operations)
  unfold IsUnited at united
  rw [AttributeIndex.attributesFor, run_merged, united,
    AttributeIndex.mem_attributes_unionOf (run_isProper_values _ _)]
  simp only [Table.mem_values_iff (run_nodup_files _ _)]
  constructor
  · rintro ⟨known, ⟨uri, found⟩, given⟩
    exact ⟨uri, known, found, given⟩
  · rintro ⟨uri, known, found, given⟩
    exact ⟨known, ⟨uri, found⟩, given⟩

theorem run_isProper_merged :
    AttributeMap.IsProper ((empty settings).run operations).attributes.merged := by
  have united : ((empty settings).run (settledPart settings operations)).IsUnited :=
    run_isUnited (unionCurrent_settledPart settings operations)
  rw [run_merged, united]
  exact AttributeIndex.isProper_unionOf (run_isProper_values _ _)

end Union

/-- The attribute index after a run. A file has the attributes of the text last indexed under
it, unless it was removed since. The union of attributes gives an object exactly the attributes
that some file gave to it after the settled part of the run; it holds no object without
attributes, and its attributes are names. The settled part is the whole run if every operation
came to its end, and else up to a scan that a fault cut short after it had taken in a file. -/
theorem run_attributes (settings : Settings) (operations : List Operation) :
    let index := ((empty settings).run operations).attributes
    let settled := settledPart settings operations
    (index.files.keys.Nodup ∧
      ∀ uri, index.files.find? uri =
        (lastText? uri (history settings operations)).map extractAttributes) ∧
    ((∀ object name, name ∈ index.attributesFor object ↔
        ∃ uri known, ((empty settings).run settled).attributes.files.find? uri = some known ∧
          name ∈ AttributeMap.attributes known object) ∧
      AttributeMap.IsProper index.merged ∧
      ∀ object name, name ∈ index.attributesFor object →
        IsName name ∧ '.' ∉ name ∧ '#' ∉ name) ∧
    ((empty settings).Completed operations → UnionCurrent settings operations) ∧
    (UnionCurrent settings operations ↔ settled = operations) ∧
    (settled ≠ operations → ∃ tree root later, operations = settled ++ .scan tree root :: later ∧
      (scanOutcome settings tree root).2.isSome ∧
      (scanOutcome settings tree root).1.flatMap Visit.changes ≠ []) := by
  intro index settled
  refine ⟨⟨run_nodup_files settings operations, run_files settings operations⟩, ⟨?_, ?_, ?_⟩,
    unionCurrent_of_completed, settledPart_eq_iff.symm, ?_⟩
  · exact fun object name => run_mem_attributesFor settings operations
  · exact run_isProper_merged settings operations
  · intro object name member
    obtain ⟨uri, known, found, given⟩ := (run_mem_attributesFor settings operations).mp member
    rw [run_files] at found
    obtain ⟨text, -, rfl⟩ := Option.map_eq_some_iff.mp found
    have shape := isName_of_mem_extractAttributes given
    exact ⟨shape, shape.plain⟩
  · intro different
    exact exists_interrupted_scan fun current => different (settledPart_of_current current)

/-- Two files give attributes to one object, and the first of them is removed again. -/
def removalRun : List Operation :=
  [.update ['a'] ['A', '.', 'x'], .update ['b'] ['A', '[', 'y', ']'], .remove ['a']]

/-- After the removal the object keeps what the second file gives to it. -/
theorem run_attributes_removalRun :
    UnionCurrent .standard removalRun ∧
      ((empty .standard).run removalRun).attributes.attributesFor ['A'] = [['y']] ∧
      IsName ['y'] := by
  have names := (run_attributes .standard removalRun).2.1.2.2
  have kept : ((empty .standard).run removalRun).attributes.attributesFor ['A'] = [['y']] := by
    decide
  refine ⟨rfl, kept, (names ['A'] ['y'] ?_).1⟩
  rw [kept]
  exact List.mem_singleton.mpr rfl

/-- After the scan that ends at a file without a URI, tags are taken in. The file that the scan
had indexed by then gives an attribute to an object, and the union of attributes does not. -/
theorem attributesFor_lacks_namelessFile :
    let index := ((empty .standard).run
      [.scan NamelessFile.tree NamelessFile.root, .indexTags "#t".toList (some ['u'])]).attributes
    index.files.find? NamelessFile.uri = some (extractAttributes NamelessFile.text) ∧
      ['x'] ∈ AttributeMap.attributes (extractAttributes NamelessFile.text) ['A'] ∧
      index.attributesFor ['A'] = [] := by
  have reached : ((empty .standard).run
      [.scan NamelessFile.tree NamelessFile.root,
        .indexTags "#t".toList (some ['u'])]).attributes =
      (((empty .standard).addRoot NamelessFile.root).takeIn
        (.indexed NamelessFile.uri NamelessFile.text)).attributes := by
    change ((empty .standard).run [.scan NamelessFile.tree NamelessFile.root]).attributes = _
    rw [NamelessFile.run_eq]
  simp only [reached]
  decide +kernel

end Workspace

end GrammarLens
