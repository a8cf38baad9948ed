import GrammarLens.Proofs.AttributeUnion

/-!
Contract: definitions, documentation and tags after any run of operations.

Owns:
- the records that a history extracts, in order, and the tags that it takes in;
- the latest record of a name, the latest documentation of a name, and the latest record of
  a name in each file;
- the collisions among records, which are what a run reports as redefined;
- the tags in order of first arrival, with the files they came from.

Does not own: which definitions and tags a text has.
-/

namespace GrammarLens

/-! ## Records and tags of a history -/

namespace Change

/-- The definitions that a change extracts. -/
def records : Change → List DefinitionRecord
  | .indexed uri text => extractDefinitions text uri
  | .removed _ | .tagged _ _ => []

/-- The tags that a change takes in, each with the file it came from if that is known. -/
def taggings : Change → List (Text × Option Text)
  | .tagged text uri => (extractTags text).map fun tag => (tag, uri)
  | .indexed _ _ | .removed _ => []

end Change

/-- The definitions that a history extracts, in order. -/
def recordsOf (changes : List Change) : List DefinitionRecord := changes.flatMap Change.records

/-- The tags that a history takes in, in order. -/
def taggingsOf (changes : List Change) : List (Text × Option Text) :=
  changes.flatMap Change.taggings

@[simp]
theorem recordsOf_cons (change : Change) (changes : List Change) :
    recordsOf (change :: changes) = change.records ++ recordsOf changes := List.flatMap_cons

@[simp]
theorem recordsOf_append (first second : List Change) :
    recordsOf (first ++ second) = recordsOf first ++ recordsOf second := List.flatMap_append

@[simp]
theorem taggingsOf_cons (change : Change) (changes : List Change) :
    taggingsOf (change :: changes) = change.taggings ++ taggingsOf changes := List.flatMap_cons

def named (name : Text) (records : List DefinitionRecord) : List DefinitionRecord :=
  records.filter fun entry => entry.name = name

/-- The place of the last record that stands in a file. -/
def lastSiteIn? (records : List DefinitionRecord) (uri : Text) : Option DefinitionSite :=
  (records.filter fun entry => entry.uri = uri).getLast?.map Workspace.siteOf

/-- The collision of a record with the records before it: the last one of its name stands in
another file. -/
def collision? (earlier : List DefinitionRecord) (entry : DefinitionRecord) :
    Option Redefinition :=
  match (named entry.name earlier).getLast? with
  | some previous =>
    if previous.uri = entry.uri then none
    else some ⟨entry.name, Workspace.siteOf entry, Workspace.siteOf previous⟩
  | none => none

/-- The collisions of records that follow `earlier` ones, in order. -/
def collisionsAfter (earlier : List DefinitionRecord) : List DefinitionRecord → List Redefinition
  | [] => []
  | entry :: rest => (collision? earlier entry).toList ++ collisionsAfter (earlier ++ [entry]) rest

def collisions (records : List DefinitionRecord) : List Redefinition := collisionsAfter [] records

theorem named_concat (name : Text) (records : List DefinitionRecord) (entry : DefinitionRecord) :
    named name (records ++ [entry]) =
      named name records ++ if entry.name = name then [entry] else [] := by
  unfold named
  rw [List.filter_append]
  by_cases same : entry.name = name
  · simp [same]
  · simp [same]

/-! ## The definition index after records -/

namespace DefinitionIndex

def ofRecords (records : List DefinitionRecord) : DefinitionIndex := records.foldl addRecord empty

theorem ofRecords_concat (records : List DefinitionRecord) (entry : DefinitionRecord) :
    ofRecords (records ++ [entry]) = (ofRecords records).addRecord entry := by
  simp [ofRecords]

/-- The last record of a name wins. -/
theorem lookup?_ofRecords (records : List DefinitionRecord) (name : Text) :
    (ofRecords records).lookup? name = (named name records).getLast?.map Workspace.siteOf := by
  induction records using List.reverseRecOn with
  | nil => rfl
  | append_singleton records entry inductionHypothesis =>
      rw [ofRecords_concat, named_concat]
      unfold lookup? at inductionHypothesis ⊢
      simp only [addRecord, add, Table.find?_put, inductionHypothesis, beq_iff_eq]
      split
      · simp
      · simp

/-- For each name, the records of its files are entered one after the other. -/
theorem sources_ofRecords (records : List DefinitionRecord) (name : Text) :
    ((ofRecords records).sources.find? name).getD Table.empty =
      Table.ofList ((named name records).map fun entry => (entry.uri, Workspace.siteOf entry)) := by
  induction records using List.reverseRecOn with
  | nil => rfl
  | append_singleton records entry inductionHypothesis =>
      rw [ofRecords_concat, named_concat]
      simp only [addRecord, add, keep, Table.find?_put, beq_iff_eq]
      by_cases same : entry.name = name
      · rw [if_pos same, if_pos same, Option.getD_some, same, inductionHypothesis, List.map_append]
        exact (Table.ofList_concat _ _ _).symm
      · rw [if_neg same, if_neg same, List.append_nil, inductionHypothesis]

/-- The files of a name, in order of their first record of it. -/
def filesOf (name : Text) (records : List DefinitionRecord) : List Text :=
  distinct ((named name records).map DefinitionRecord.uri)

theorem conflicts_ofRecords (records : List DefinitionRecord) (name : Text) :
    (ofRecords records).conflicts name =
      if (filesOf name records).length < 2 then []
      else (filesOf name records).filterMap (lastSiteIn? (named name records)) := by
  have keys : (Table.ofList ((named name records).map
      fun entry => (entry.uri, Workspace.siteOf entry))).keys = filesOf name records := by
    rw [Table.keys_ofList, List.map_map]
    rfl
  have found : (Table.ofList ((named name records).map
      fun entry => (entry.uri, Workspace.siteOf entry))).find? =
        lastSiteIn? (named name records) := by
    funext uri
    rw [Table.find?_ofList, lastSiteIn?, List.filter_map, List.getLast?_map, Option.map_map]
    simp only [Function.comp_def, beq_eq_decide]
  have size : (Table.ofList ((named name records).map
      fun entry => (entry.uri, Workspace.siteOf entry))).size = (filesOf name records).length := by
    rw [← keys, Table.keys, List.length_map, Table.size]
  simp only [conflicts]
  rw [sources_ofRecords, Table.values_eq_filterMap (Table.nodup_keys_ofList _), keys, found, size]

/-- The winner of a name that has conflicts is one of them. -/
theorem winner_mem_conflicts {records : List DefinitionRecord} {name : Text}
    {winner : DefinitionSite} (found : (ofRecords records).lookup? name = some winner) :
    (ofRecords records).conflicts name = [] ∨ winner ∈ (ofRecords records).conflicts name := by
  rw [conflicts_ofRecords]
  split
  · exact .inl rfl
  · rw [lookup?_ofRecords] at found
    obtain ⟨last, isLast, rfl⟩ := Option.map_eq_some_iff.mp found
    refine .inr (List.mem_filterMap.mpr ⟨last.uri, ?_, ?_⟩)
    · rw [filesOf, mem_distinct]
      exact List.mem_map.mpr ⟨last, List.mem_of_getLast? isLast, rfl⟩
    · -- The last record of a name is also the last one of the name in its own file.
      obtain ⟨earlier, split⟩ := List.getLast?_eq_some_iff.mp isLast
      rw [lastSiteIn?, split, List.filter_append]
      simp

end DefinitionIndex

/-! ## The documentation index after records -/

namespace DocumentationIndex

theorem docs_foldl_addRecord (index : DocumentationIndex) (records : List DefinitionRecord) :
    (records.foldl addRecord index).docs =
      index.docs.putAll (records.filterMap fun entry => entry.doc.map fun doc => (entry.name, doc)) := by
  induction records generalizing index with
  | nil => rfl
  | cons entry rest inductionHypothesis =>
      rw [List.foldl_cons, inductionHypothesis]
      unfold addRecord
      cases documented : entry.doc with
      | none => simp [documented]
      | some doc =>
          rw [List.filterMap_cons_some (by rw [documented]; rfl)]
          rfl

/-- The last documentation of a name is the one kept. -/
theorem lookup?_foldl_addRecord (records : List DefinitionRecord) (name : Text) :
    (records.foldl addRecord empty).lookup? name =
      ((named name records).filterMap DefinitionRecord.doc).getLast? := by
  have pairs : ((records.filterMap fun entry => entry.doc.map fun doc => (entry.name, doc)).filter
      fun pair => pair.1 == name).map Prod.snd =
        (named name records).filterMap DefinitionRecord.doc := by
    induction records with
    | nil => rfl
    | cons entry rest inductionHypothesis =>
        unfold named at inductionHypothesis ⊢
        cases documented : entry.doc <;> by_cases same : entry.name = name <;>
          simp [documented, same, ← inductionHypothesis]
  rw [lookup?, docs_foldl_addRecord, empty, Table.find?_putAll, Table.find?_empty, Option.or_none,
    ← List.getLast?_map, pairs]

end DocumentationIndex

/-! ## The tag index after taggings -/

namespace TagIndex

/-- The index of tags entered one after the other, each with its file. -/
def ofTaggings (taggings : List (Text × Option Text)) : TagIndex :=
  taggings.foldl (fun index tagging => index.add tagging.1 tagging.2) empty

theorem ofTaggings_concat (taggings : List (Text × Option Text)) (tag : Text)
    (source : Option Text) :
    ofTaggings (taggings ++ [(tag, source)]) = (ofTaggings taggings).add tag source := by
  simp [ofTaggings]

private theorem tags_ofTaggings (taggings : List (Text × Option Text)) :
    (ofTaggings taggings).tags = distinct (taggings.map Prod.fst) := by
  induction taggings using List.reverseRecOn with
  | nil => rfl
  | append_singleton taggings tagging inductionHypothesis =>
      obtain ⟨tag, source⟩ := tagging
      unfold tags at inductionHypothesis ⊢
      rw [ofTaggings_concat, List.map_append, List.map_singleton, distinct_concat]
      simp only [add, Table.keys_put, inductionHypothesis, mem_distinct]

private theorem sources_add (index : TagIndex) (tag other : Text) (source : Option Text) :
    (index.add tag source).sources other =
      if tag = other then
        match source with
        | some file => (index.sources tag).insert file
        | none => index.sources tag
      else index.sources other := by
  by_cases same : tag = other
  · cases source <;> simp [sources, add, same]
  · cases source <;> simp [sources, add, same]

/-- The files of a tag are those that it was entered with, each once. -/
theorem sources_ofTaggings (taggings : List (Text × Option Text)) (tag : Text) :
    ((ofTaggings taggings).sources tag).Nodup ∧
      ∀ uri, uri ∈ (ofTaggings taggings).sources tag ↔ (tag, some uri) ∈ taggings := by
  induction taggings using List.reverseRecOn with
  | nil =>
      refine ⟨List.nodup_nil, fun uri => ?_⟩
      simp [ofTaggings, sources, empty]
  | append_singleton taggings tagging inductionHypothesis =>
      obtain ⟨other, source⟩ := tagging
      obtain ⟨once, members⟩ := inductionHypothesis
      rw [ofTaggings_concat, sources_add]
      by_cases same : other = tag
      · subst same
        cases source with
        | none => simpa [members] using once
        | some file =>
            refine ⟨by simpa using List.Nodup.insert once, fun uri => ?_⟩
            simp [members, or_comm]
      · have unrelated : tag ≠ other := Ne.symm same
        simpa [same, unrelated, members] using once

theorem contains_of_mem_sources {index : TagIndex} {tag uri : Text}
    (source : uri ∈ index.sources tag) : index.contains tag := by
  unfold sources at source
  unfold contains Table.contains
  cases found : index.owners.find? tag with
  | none => simp [found] at source
  | some files => rfl

end TagIndex

/-! ## Tables after a history -/

namespace Tables

theorem definitions_afterAll (tables : Tables) (changes : List Change) :
    (tables.afterAll changes).definitions =
      (recordsOf changes).foldl DefinitionIndex.addRecord tables.definitions := by
  induction changes generalizing tables with
  | nil => rfl
  | cons change rest inductionHypothesis =>
      rw [afterAll_cons, inductionHypothesis, recordsOf_cons, List.foldl_append]
      cases change <;> rfl

theorem documentation_afterAll (tables : Tables) (changes : List Change) :
    (tables.afterAll changes).documentation =
      (recordsOf changes).foldl DocumentationIndex.addRecord tables.documentation := by
  induction changes generalizing tables with
  | nil => rfl
  | cons change rest inductionHypothesis =>
      rw [afterAll_cons, inductionHypothesis, recordsOf_cons, List.foldl_append]
      cases change <;> rfl

theorem tags_afterAll (tables : Tables) (changes : List Change) :
    (tables.afterAll changes).tags =
      (taggingsOf changes).foldl (fun index tagging => index.add tagging.1 tagging.2)
        tables.tags := by
  induction changes generalizing tables with
  | nil => rfl
  | cons change rest inductionHypothesis =>
      rw [afterAll_cons, inductionHypothesis, taggingsOf_cons, List.foldl_append]
      cases change with
      | indexed uri text => rfl
      | removed uri => rfl
      | tagged text source =>
          rw [Change.taggings, List.foldl_map]
          rfl

end Tables

/-! ## Reports -/

/-- The redefinition that a notice reports. -/
def Notice.redefinition? : Notice → Option Redefinition
  | .redefined event => some event
  | _ => none

namespace Workspace

def stepNotices (workspace : Workspace) : Operation → List Notice
  | .update uri text => workspace.indexNotices uri text
  | .remove uri => workspace.removeNotices uri
  | .indexTags _ _ | .addRoot _ => []
  | .refresh uri text offset => (workspace.refresh uri text offset).notices
  | .scan tree root => (workspace.scan tree root).notices

def runNotices (workspace : Workspace) : List Operation → List Notice
  | [] => []
  | operation :: rest =>
    workspace.stepNotices operation ++ (workspace.step operation).runNotices rest

theorem redefinitions_append (index : DefinitionIndex) (first second : List DefinitionRecord) :
    redefinitions index (first ++ second) =
      redefinitions index first ++
        redefinitions (first.foldl DefinitionIndex.addRecord index) second := by
  induction first generalizing index with
  | nil => rfl
  | cons entry rest inductionHypothesis =>
      simp only [List.cons_append, redefinitions, List.append_assoc, List.foldl_cons]
      rw [inductionHypothesis]
      rfl

/-- The reports owed for records that follow others are their collisions. -/
theorem redefinitions_ofRecords (earlier records : List DefinitionRecord) :
    redefinitions (DefinitionIndex.ofRecords earlier) records =
      collisionsAfter earlier records := by
  induction records generalizing earlier with
  | nil => rfl
  | cons entry rest inductionHypothesis =>
      have owed : (DefinitionIndex.ofRecords earlier).redefinition? entry.name (siteOf entry) =
          collision? earlier entry := by
        unfold DefinitionIndex.redefinition? collision?
        rw [DefinitionIndex.lookup?_ofRecords]
        cases (named entry.name earlier).getLast? with
        | none => rfl
        | some previous => rfl
      have next := inductionHypothesis (earlier ++ [entry])
      rw [DefinitionIndex.ofRecords_concat] at next
      rw [redefinitions, collisionsAfter, owed, ← next]
      rfl

theorem indexNotices_redefinitions (workspace : Workspace) (uri text : Text) :
    (workspace.indexNotices uri text).filterMap Notice.redefinition? =
      redefinitions workspace.definitions (extractDefinitions text uri) := by
  rw [indexNotices, List.filterMap_append, List.filterMap_map]
  have kept : Notice.redefinition? ∘ Notice.redefined = some := rfl
  rw [kept, List.filterMap_some]
  exact List.append_nil _

private theorem takeIn_definitions (workspace : Workspace) (visit : Visit) :
    (workspace.takeIn visit).definitions =
      (recordsOf visit.changes).foldl DefinitionIndex.addRecord workspace.definitions := by
  have whole := Tables.definitions_afterAll workspace.tables visit.changes
  rwa [← takeIn_tables] at whole

private theorem visitNotices_redefinitions (visits : List Visit) (workspace : Workspace) :
    (workspace.visitNotices visits).filterMap Notice.redefinition? =
      redefinitions workspace.definitions (recordsOf (visits.flatMap Visit.changes)) := by
  induction visits generalizing workspace with
  | nil => rfl
  | cons visit rest inductionHypothesis =>
      have here : (workspace.takeInNotices visit).filterMap Notice.redefinition? =
          redefinitions workspace.definitions (recordsOf visit.changes) := by
        cases visit with
        | indexed uri text =>
            rw [takeInNotices, indexNotices_redefinitions]
            simp [recordsOf, Visit.changes, Change.ofText, Change.records]
        | failed failure => rfl
      rw [visitNotices, List.filterMap_append, here, inductionHypothesis, takeIn_definitions,
        List.flatMap_cons, recordsOf_append, redefinitions_append]

/-- An operation reports the redefinitions among the records that it extracts. -/
theorem stepNotices_redefinitions (workspace : Workspace) (operation : Operation) :
    (workspace.stepNotices operation).filterMap Notice.redefinition? =
      redefinitions workspace.definitions (recordsOf (changesOf workspace.settings operation)) := by
  cases operation with
  | update uri text =>
      rw [stepNotices, indexNotices_redefinitions]
      simp [recordsOf, changesOf, Change.records]
  | remove uri =>
      simp only [stepNotices, removeNotices]
      split <;> rfl
  | indexTags text uri => rfl
  | refresh uri text offset =>
      simp only [stepNotices, refresh, changesOf]
      cases endsStructurally workspace.settings text offset with
      | error fault => rfl
      | ok structural =>
          cases structural with
          | false => rfl
          | true =>
              rw [indexNotices_redefinitions]
              simp [recordsOf, Change.ofText, Change.records]
  | addRoot root => rfl
  | scan tree root =>
      have rooted : (workspace.addRoot (scanStart tree root)).definitions =
          workspace.definitions := by
        rw [addRoot_eq]
      simp only [stepNotices, changesOf, scanOutcome]
      obtain ⟨error, checked, ended⟩ | ⟨checked, ended⟩ |
        ⟨place, visits, fault, checked, gone, ended⟩ | ⟨place, visits, checked, gone, ended⟩ :=
        scan_cases workspace tree root
      · rw [ended, checked]
        rfl
      · rw [ended, checked]
        rfl
      · rw [ended, checked, visitNotices_redefinitions, rooted]
        simp only [gone]
      · rw [ended, checked, List.filterMap_append, visitNotices_redefinitions, rooted]
        simp only [gone]
        exact List.append_nil _

private theorem step_definitions (workspace : Workspace) (operation : Operation) :
    (workspace.step operation).definitions =
      (recordsOf (changesOf workspace.settings operation)).foldl DefinitionIndex.addRecord
        workspace.definitions := by
  have whole := Tables.definitions_afterAll workspace.tables (changesOf workspace.settings operation)
  rwa [← step_tables] at whole

private theorem runNotices_redefinitions (workspace : Workspace) (operations : List Operation) :
    (workspace.runNotices operations).filterMap Notice.redefinition? =
      redefinitions workspace.definitions (recordsOf (history workspace.settings operations)) := by
  induction operations generalizing workspace with
  | nil => rfl
  | cons operation rest inductionHypothesis =>
      rw [runNotices, List.filterMap_append, stepNotices_redefinitions, inductionHypothesis,
        step_settings, step_definitions, history_cons, recordsOf_append, redefinitions_append]

/-! ## Runs -/

theorem run_definitions (settings : Settings) (operations : List Operation) :
    ((empty settings).run operations).definitions =
      DefinitionIndex.ofRecords (recordsOf (history settings operations)) :=
  (congrArg Tables.definitions (run_empty_tables settings operations)).trans
    (Tables.definitions_afterAll ..)

theorem run_documentation (settings : Settings) (operations : List Operation) :
    ((empty settings).run operations).documentation =
      (recordsOf (history settings operations)).foldl DocumentationIndex.addRecord .empty :=
  (congrArg Tables.documentation (run_empty_tables settings operations)).trans
    (Tables.documentation_afterAll ..)

theorem run_tags (settings : Settings) (operations : List Operation) :
    ((empty settings).run operations).tags =
      TagIndex.ofTaggings (taggingsOf (history settings operations)) :=
  (congrArg Tables.tags (run_empty_tables settings operations)).trans (Tables.tags_afterAll ..)

/-- Definitions, documentation and tags after a run, in terms of the records that it extracts
and the tags that it takes in. The last record of a name wins, and the last documentation of a
name is kept. A name that several files define has as conflicts the last record of each file, in
order of the files' first records, its winner among them. What the run reports as redefined are
the records whose predecessor of the same name stands in another file. Tags stand in order of
first arrival with all their files. Removing a file touches nothing of this. -/
theorem run_records (settings : Settings) (operations : List Operation) :
    let workspace := (empty settings).run operations
    let records := recordsOf (history settings operations)
    let taggings := taggingsOf (history settings operations)
    (∀ name,
      workspace.definitions.lookup? name = (named name records).getLast?.map siteOf ∧
      workspace.documentation.lookup? name =
        ((named name records).filterMap DefinitionRecord.doc).getLast? ∧
      workspace.definitions.conflicts name =
        (if (DefinitionIndex.filesOf name records).length < 2 then []
        else
          (DefinitionIndex.filesOf name records).filterMap (lastSiteIn? (named name records))) ∧
      ∀ winner, workspace.definitions.lookup? name = some winner →
        workspace.definitions.conflicts name = [] ∨
          winner ∈ workspace.definitions.conflicts name) ∧
    ((empty settings).runNotices operations).filterMap Notice.redefinition? = collisions records ∧
    workspace.tags.tags = distinct (taggings.map Prod.fst) ∧
    (∀ tag, (workspace.tags.sources tag).Nodup ∧
      ∀ uri, uri ∈ workspace.tags.sources tag ↔ (tag, some uri) ∈ taggings) ∧
    ∀ uri, (workspace.remove uri).definitions = workspace.definitions ∧
      (workspace.remove uri).documentation = workspace.documentation ∧
      (workspace.remove uri).tags = workspace.tags := by
  intro workspace records taggings
  have tables := run_empty_tables settings operations
  have definitions : workspace.definitions = DefinitionIndex.ofRecords records :=
    (congrArg Tables.definitions tables).trans (Tables.definitions_afterAll ..)
  have documentation : workspace.documentation =
      records.foldl DocumentationIndex.addRecord .empty :=
    (congrArg Tables.documentation tables).trans (Tables.documentation_afterAll ..)
  have tags : workspace.tags = TagIndex.ofTaggings taggings :=
    (congrArg Tables.tags tables).trans (Tables.tags_afterAll ..)
  rw [definitions, documentation, tags]
  refine ⟨fun name => ⟨?_, ?_, ?_, ?_⟩, ?_, ?_, ?_, ?_⟩
  · exact DefinitionIndex.lookup?_ofRecords records name
  · exact DocumentationIndex.lookup?_foldl_addRecord records name
  · exact DefinitionIndex.conflicts_ofRecords records name
  · exact fun winner found => DefinitionIndex.winner_mem_conflicts found
  · rw [runNotices_redefinitions]
    exact redefinitions_ofRecords [] records
  · exact TagIndex.tags_ofTaggings taggings
  · exact TagIndex.sources_ofTaggings taggings
  · exact fun uri => ⟨definitions, documentation, tags⟩

end Workspace

end GrammarLens
