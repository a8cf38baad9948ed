import GrammarLens.Proofs.AttributeCompletion
import GrammarLens.Proofs.DefinitionHistory

/-!
Contract: the order of updates that have nothing to do with each other.

Owns:
- workspaces that resemble each other: the same content, in tables whose order may differ;
- every question that an editor asks has the same answer in both;
- what a run leaves behind depends on its history through the last text of each file, the
  records of each name and the tags taken in;
- updates of two files that define no common name may be made in either order.

## Where the order of a table could show

Objects are offered out of the union of attributes in table order, and names are highlighted out of
the list of winners. The first are ranked by a total order before they are offered, the second are
only asked for membership. The conflicts of a name are listed in the order of its own records, which
two texts without a common name do not share.
-/

namespace GrammarLens

/-! ## Completion without regard to the order of tables -/

namespace Completion

theorem attributeItems_eq_of_perm {names others : List Text} (same : names.Perm others)
    (leadingSpace : Bool) : attributeItems names leadingSpace = attributeItems others leadingSpace := by
  rw [attributeItems, attributeItems, rankNames_eq_of_perm same]

section

variable {left right : AttributeIndex}
  (attributes : ∀ object, (left.attributesFor object).Perm (right.attributesFor object))

include attributes

theorem Trigger.items_eq (tags : TagIndex) (before : Text) (trigger : Trigger) :
    trigger.items left tags before = trigger.items right tags before := by
  cases trigger with
  | tags start => rfl
  | attributes object => exact attributeItems_eq_of_perm (attributes object) _
  | attributesStarting object start =>
      exact attributeItems_eq_of_perm ((attributes object).filter _) _
  | bracket object => exact attributeItems_eq_of_perm (attributes object) _

private theorem complete_eq (objects : left.merged.keys.Perm right.merged.keys)
    (settings : Settings) (tags : TagIndex) (text : Text) (offset : Int) :
    complete settings left tags text offset = complete settings right tags text offset := by
  have continued : ∀ object, continuationItems left object = continuationItems right object := by
    intro object
    rw [continuationItems, continuationItems, attributeItems_eq_of_perm (attributes object)]
  have typed : ∀ start, objectItems left start = objectItems right start := by
    intro start
    have starting : (left.objectsStarting start).Perm (right.objectsStarting start) :=
      objects.filter _
    rw [objectItems, objectItems, attributeItems_eq_of_perm starting]
  simp only [complete, Trigger.items_eq attributes, continued, typed]

end

end Completion

/-- The names that a text defines. -/
def namesDefinedIn (text : Text) : List Text := (definedNames text).map fun entry => entry.2.1

private theorem named_extractDefinitions_eq_nil {name text : Text}
    (absent : name ∉ namesDefinedIn text)
    (uri : Text) : named name (extractDefinitions text uri) = [] := by
  rw [named, List.filter_eq_nil_iff]
  intro entry member same
  obtain ⟨defined, occurs, rfl⟩ := List.mem_map.mp member
  exact absent (List.mem_map.mpr ⟨defined, occurs, of_decide_eq_true same⟩)

namespace Workspace

/-! ## Workspaces with the same content -/

/-- The same content, in tables whose order may differ. -/
structure Resembles (left right : Workspace) : Prop where
  settings : left.settings = right.settings
  roots : left.roots = right.roots
  tags : left.tags = right.tags
  objects : left.attributes.merged.keys.Perm right.attributes.merged.keys
  attributes : ∀ object,
    (left.attributes.attributesFor object).Perm (right.attributes.attributesFor object)
  winner : ∀ name, left.definitions.lookup? name = right.definitions.lookup? name
  conflicts : ∀ name, left.definitions.conflicts name = right.definitions.conflicts name
  documentation : ∀ name, left.documentation.lookup? name = right.documentation.lookup? name

/-- Workspaces that an editor cannot tell apart by what it asks. -/
structure AnswersAlike (left right : Workspace) : Prop where
  attributes : ∀ object,
    (left.attributes.attributesFor object).Perm (right.attributes.attributesFor object)
  winner : ∀ name, left.definitions.lookup? name = right.definitions.lookup? name
  conflicts : ∀ name, left.definitions.conflicts name = right.definitions.conflicts name
  documentation : ∀ name, left.documentation.lookup? name = right.documentation.lookup? name
  highlighting : ∀ text, left.highlighting text = right.highlighting text
  hover : ∀ text line character, left.hover text line character = right.hover text line character
  definition : ∀ text line character,
    (left.definition text line character).result = (right.definition text line character).result ∧
      (left.definition text line character).notices = (right.definition text line character).notices
  completion : ∀ text offset,
    Completion.complete left.settings left.attributes left.tags text offset =
      Completion.complete right.settings right.attributes right.tags text offset

namespace Resembles

variable {left right : Workspace} (resembles : left.Resembles right)

include resembles

theorem wordAt (text : Text) (offset : Int) : left.wordAt text offset = right.wordAt text offset := by
  unfold Workspace.wordAt
  rw [resembles.settings]

theorem resolveInRoots (uri : Text) : left.resolveInRoots uri = right.resolveInRoots uri := by
  unfold Workspace.resolveInRoots
  rw [resembles.roots]

private theorem names_contains :
    left.definitions.names.contains = right.definitions.names.contains := by
  funext name
  have winner := resembles.winner name
  unfold DefinitionIndex.lookup? at winner
  rw [Bool.eq_iff_iff, List.contains_iff_mem, List.contains_iff_mem, DefinitionIndex.names,
    DefinitionIndex.names, Table.mem_keys_iff, Table.mem_keys_iff, winner]

theorem highlighting (text : Text) : left.highlighting text = right.highlighting text := by
  unfold Workspace.highlighting Highlight.tokens Highlight.classify
  rw [resembles.names_contains]

theorem hover (text : Text) (line character : Int) :
    left.hover text line character = right.hover text line character := by
  unfold Workspace.hover
  simp only [resembles.wordAt, resembles.documentation]

theorem definition (text : Text) (line character : Int) :
    (left.definition text line character).result = (right.definition text line character).result ∧
      (left.definition text line character).notices =
        (right.definition text line character).notices := by
  unfold Workspace.definition
  rw [resembles.wordAt]
  cases right.wordAt text (text.offsetAt line character) with
  | error fault => exact ⟨rfl, rfl⟩
  | ok found =>
      cases found with
      | none => exact ⟨rfl, rfl⟩
      | some word =>
          simp only [resembles.winner]
          cases right.definitions.lookup? word.text with
          | none => exact ⟨rfl, rfl⟩
          | some site =>
              simp only [resembles.resolveInRoots]
              cases right.resolveInRoots site.uri with
              | error error => exact ⟨rfl, rfl⟩
              | ok target => cases target <;> exact ⟨rfl, rfl⟩

/-- Workspaces with the same content answer alike. -/
theorem answersAlike : left.AnswersAlike right where
  attributes := resembles.attributes
  winner := resembles.winner
  conflicts := resembles.conflicts
  documentation := resembles.documentation
  highlighting := resembles.highlighting
  hover := resembles.hover
  definition := resembles.definition
  completion := by
    intro text offset
    rw [resembles.settings, resembles.tags]
    exact Completion.complete_eq resembles.attributes resembles.objects _ _ text offset

end Resembles

/-! ## Runs that leave the same content -/

/-- What a run leaves behind, by the last text of each file, the records of each name and the tags
that it takes in. -/
theorem resembles_of_histories {settings : Settings} {first second : List Operation}
    (firstCurrent : UnionCurrent settings first) (secondCurrent : UnionCurrent settings second)
    (texts : ∀ uri, lastText? uri (history settings first) = lastText? uri (history settings second))
    (records : ∀ name, named name (recordsOf (history settings first)) =
      named name (recordsOf (history settings second)))
    (taggings : taggingsOf (history settings first) = taggingsOf (history settings second))
    (roots : ((empty settings).run first).roots = ((empty settings).run second).roots) :
    ((empty settings).run first).Resembles ((empty settings).run second) := by
  have members : ∀ object feature,
      feature ∈ ((empty settings).run first).attributes.attributesFor object ↔
        feature ∈ ((empty settings).run second).attributes.attributesFor object := by
    intro object feature
    rw [mem_attributesFor_iff_gives firstCurrent, mem_attributesFor_iff_gives secondCurrent, Gives,
      Gives]
    simp only [texts]
  have sameSettings : ((empty settings).run first).settings =
      ((empty settings).run second).settings := by
    rw [run_settings, run_settings]
  refine ⟨sameSettings, roots, ?tags, ?objects, ?attributes, ?winner, ?conflicts, ?documentation⟩
  case tags => rw [run_tags, run_tags, taggings]
  case objects =>
      have firstProper := run_isProper_merged settings first
      have secondProper := run_isProper_merged settings second
      rw [List.perm_ext_iff_of_nodup firstProper.objects secondProper.objects]
      intro object
      rw [firstProper.mem_keys_iff, secondProper.mem_keys_iff]
      exact exists_congr (members object)
  case attributes =>
      intro object
      rw [List.perm_ext_iff_of_nodup (nodup_attributesFor object) (nodup_attributesFor object)]
      exact members object
  case winner =>
      intro name
      rw [run_definitions, run_definitions, DefinitionIndex.lookup?_ofRecords,
        DefinitionIndex.lookup?_ofRecords, records]
  case conflicts =>
      intro name
      rw [run_definitions, run_definitions, DefinitionIndex.conflicts_ofRecords,
        DefinitionIndex.conflicts_ofRecords, DefinitionIndex.filesOf, DefinitionIndex.filesOf,
        records]
  case documentation =>
      intro name
      rw [run_documentation, run_documentation, DocumentationIndex.lookup?_foldl_addRecord,
        DocumentationIndex.lookup?_foldl_addRecord, records]

/-! ## Updates of two files -/

private theorem history_updates (settings : Settings) (operations : List Operation)
    (first firstText second secondText : Text) :
    history settings (operations ++ [.update first firstText] ++ [.update second secondText]) =
      history settings operations ++ [.indexed first firstText] ++
        [.indexed second secondText] := by
  simp [history, changesOf]

private theorem lastText?_swap (uri : Text) (changes : List Change)
    {first firstText second secondText : Text} (different : first ≠ second) :
    lastText? uri (changes ++ [.indexed first firstText] ++ [.indexed second secondText]) =
      lastText? uri (changes ++ [.indexed second secondText] ++ [.indexed first firstText]) := by
  simp only [lastText?_concat, Change.concerns, decide_eq_true_eq]
  by_cases atFirst : first = uri
  · subst atFirst
    rw [if_neg (Ne.symm different), if_pos rfl, if_pos rfl]
  · rw [if_neg atFirst, if_neg atFirst]

private theorem named_swap (name : Text) (changes : List Change)
    {first firstText second secondText : Text}
    (apart : (namesDefinedIn firstText).Disjoint (namesDefinedIn secondText)) :
    named name (recordsOf
        (changes ++ [.indexed first firstText] ++ [.indexed second secondText])) =
      named name (recordsOf
        (changes ++ [.indexed second secondText] ++ [.indexed first firstText])) := by
  have records : ∀ uri text, recordsOf [.indexed uri text] = extractDefinitions text uri :=
    fun uri text => List.append_nil _
  simp only [recordsOf_append, records, named, List.filter_append, List.append_assoc]
  by_cases inFirst : name ∈ namesDefinedIn firstText
  · have absent := named_extractDefinitions_eq_nil (apart inFirst) second
    unfold named at absent
    rw [absent, List.append_nil, List.nil_append]
  · have absent := named_extractDefinitions_eq_nil inFirst first
    unfold named at absent
    rw [absent, List.append_nil, List.nil_append]

/-- Updates of two files whose texts define no common name may be made in either order: the
workspaces that they lead to answer alike. -/
theorem update_update_answersAlike (settings : Settings) (operations : List Operation)
    {first second firstText secondText : Text} (different : first ≠ second)
    (apart : (namesDefinedIn firstText).Disjoint (namesDefinedIn secondText)) :
    let workspace := (empty settings).run operations
    ((workspace.update first firstText).update second secondText).AnswersAlike
      ((workspace.update second secondText).update first firstText) := by
  intro workspace
  have runs : ∀ first firstText second secondText,
      (workspace.update first firstText).update second secondText =
        (empty settings).run
          (operations ++ [.update first firstText] ++ [.update second secondText]) := by
    intro first firstText second secondText
    rw [Workspace.run, List.foldl_append, List.foldl_append]
    rfl
  have roots : ∀ first firstText second secondText,
      ((workspace.update first firstText).update second secondText).roots = workspace.roots := by
    intro first firstText second secondText
    exact (register_roots ..).trans (register_roots ..)
  apply Resembles.answersAlike
  have leftRoots := roots first firstText second secondText
  rw [← roots second secondText first firstText] at leftRoots
  rw [runs, runs] at leftRoots ⊢
  apply resembles_of_histories (unionCurrent_concat_update ..) (unionCurrent_concat_update ..)
    _ _ _ leftRoots
  · intro uri
    rw [history_updates, history_updates, lastText?_swap uri _ different]
  · intro name
    rw [history_updates, history_updates, named_swap name _ apart]
  · rw [history_updates, history_updates]
    simp [taggingsOf, Change.taggings]

/-- Two files that share an object, one of them with a definition that the workspace knows from a
third file. The order of the objects shows which file came first, and no answer does. -/
theorem update_update_answersAlike_sharedObject :
    let workspace := (empty .standard).run [.update ['a'] "A := B.w".toList]
    let left := (workspace.update ['b'] "A := D.x".toList).update ['c'] "C := E.y, D.z".toList
    let right := (workspace.update ['c'] "C := E.y, D.z".toList).update ['b'] "A := D.x".toList
    (namesDefinedIn "A := D.x".toList).Disjoint (namesDefinedIn "C := E.y, D.z".toList) ∧
      left.attributes.merged.keys = [['B'], ['D'], ['E']] ∧
      right.attributes.merged.keys = [['B'], ['E'], ['D']] ∧ left.AnswersAlike right := by
  have first : namesDefinedIn "A := D.x".toList = [['A']] := by decide
  have second : namesDefinedIn "C := E.y, D.z".toList = [['C']] := by decide
  have apart :
      (namesDefinedIn "A := D.x".toList).Disjoint (namesDefinedIn "C := E.y, D.z".toList) := by
    rw [first, second]
    simp
  refine ⟨apart, by decide, by decide, ?_⟩
  exact update_update_answersAlike .standard [.update ['a'] "A := B.w".toList] (by decide) apart

end Workspace

end GrammarLens
