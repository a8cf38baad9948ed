import GrammarLens.Proofs.DefinitionHistory
import GrammarLens.Proofs.ScanRefinement

/-!
Contract: indexing again what has not changed leaves a workspace as it is.

Owns:
- amendments of a table in which no key stands twice, and when making all of them a second time
  changes nothing;
- changes that only add to the tables;
- texts that are indexed a second time, in the same order, leave every table as the first time left
  it, with the order of its keys;
- a second scan of an unchanged tree gives the same result and the same workspace.

Does not own: what is reported on the way, which does differ. A name that two files of a scan define
changes its winner twice in the second pass and is reported both times.

## Why only the end of the second pass is looked at

In the middle of the second pass the tables are not those of the first pass at that point, because
the later writes of the first pass are still there. But every key is present by then, so no key
moves, and the value that a key ends up with depends on the amendments of that key only.
-/

namespace GrammarLens

/-! ## Amending a table -/

namespace Table

variable {α κ ν : Type}

private theorem eq_of_keys_of_values {left right : Table κ ν} (keys : left.keys = right.keys)
    (values : left.values = right.values) : left = right := by
  obtain ⟨leftEntries⟩ := left
  obtain ⟨rightEntries⟩ := right
  change leftEntries.map Prod.fst = rightEntries.map Prod.fst at keys
  change leftEntries.map Prod.snd = rightEntries.map Prod.snd at values
  rw [← List.zip_unzip leftEntries, ← List.zip_unzip rightEntries]
  simp only [List.unzip_eq_map, keys, values]

/-- What the amendments of a single key make of its value, in order. -/
def amended (rule : α → Option ν → ν) (items : List α) (value : Option ν) : Option ν :=
  items.foldl (fun current item => some (rule item current)) value

private theorem amended_ne_none (rule : α → Option ν → ν) {items : List α} (occupied : items ≠ [])
    (value : Option ν) : amended rule items value ≠ none := by
  obtain ⟨front, last, rfl⟩ := (List.eq_nil_or_concat' items).resolve_left occupied
  simp [amended]

variable [BEq κ]

/-- Writes to the key of each item what its rule makes of the value found there. -/
def amendAll (key : α → κ) (rule : α → Option ν → ν) (table : Table κ ν) (items : List α) :
    Table κ ν :=
  items.foldl (fun current item => current.put (key item) (rule item (current.find? (key item))))
    table

variable [LawfulBEq κ]

private theorem eq_of_find? {left right : Table κ ν} (once : left.keys.Nodup)
    (keys : left.keys = right.keys) (found : ∀ key, left.find? key = right.find? key) :
    left = right := by
  apply eq_of_keys_of_values keys
  rw [values_eq_filterMap once, values_eq_filterMap (keys ▸ once), keys]
  exact List.filterMap_congr fun key _ => found key

section Amendments

variable (key : α → κ) (rule : α → Option ν → ν)

theorem find?_amendAll (table : Table κ ν) (items : List α) (wanted : κ) :
    (amendAll key rule table items).find? wanted =
      amended rule (items.filter fun item => key item == wanted) (table.find? wanted) := by
  induction items generalizing table with
  | nil => rfl
  | cons item rest inductionHypothesis =>
      change (amendAll key rule (table.put _ _) rest).find? wanted = _
      rw [inductionHypothesis, find?_put]
      by_cases same : key item = wanted
      · simp [same, amended]
      · simp [same]

theorem nodup_keys_amendAll {table : Table κ ν} (once : table.keys.Nodup) (items : List α) :
    (amendAll key rule table items).keys.Nodup := by
  induction items generalizing table with
  | nil => exact once
  | cons item rest inductionHypothesis =>
      exact inductionHypothesis (nodup_keys_put once _ _)

private theorem keys_amendAll_of_present {table : Table κ ν} {items : List α}
    (present : ∀ item ∈ items, key item ∈ table.keys) :
    (amendAll key rule table items).keys = table.keys := by
  induction items generalizing table with
  | nil => rfl
  | cons item rest inductionHypothesis =>
      have kept : (table.put (key item) (rule item (table.find? (key item)))).keys =
          table.keys := by
        rw [keys_put, if_pos (present item List.mem_cons_self)]
      change (amendAll key rule (table.put _ _) rest).keys = _
      rw [inductionHypothesis, kept]
      intro other member
      rw [kept]
      exact present other (List.mem_cons_of_mem _ member)

private theorem mem_keys_amendAll {table : Table κ ν} {items : List α} {item : α}
    (member : item ∈ items) :
    key item ∈ (amendAll key rule table items).keys := by
  rw [mem_keys_iff, ← Option.ne_none_iff_exists', find?_amendAll]
  apply amended_ne_none
  apply List.ne_nil_of_mem
  exact List.mem_filter.mpr ⟨member, by simp⟩

/-- Amendments that settle the value of each key settle the table. -/
theorem amendAll_amendAll {table : Table κ ν} {items : List α} (once : table.keys.Nodup)
    (settles : ∀ wanted, let own := items.filter fun item => key item == wanted
      amended rule own (amended rule own (table.find? wanted)) =
        amended rule own (table.find? wanted)) :
    amendAll key rule (amendAll key rule table items) items = amendAll key rule table items := by
  symm
  apply eq_of_find? (nodup_keys_amendAll key rule once items)
  · exact (keys_amendAll_of_present _ _ fun _ member => mem_keys_amendAll _ _ member).symm
  · intro wanted
    rw [find?_amendAll, find?_amendAll, find?_amendAll]
    exact (settles wanted).symm

end Amendments

/-- Writing entries that ignore what was there settles each key at its last value. -/
theorem putAll_putAll {table : Table κ ν} (once : table.keys.Nodup) (entries : List (κ × ν)) :
    (table.putAll entries).putAll entries = table.putAll entries := by
  apply amendAll_amendAll Prod.fst (fun entry _ => entry.2) once
  intro wanted own
  obtain vacant | ⟨front, last, ends⟩ := List.eq_nil_or_concat' own
  · rw [vacant]
    rfl
  · rw [ends]
    simp [amended]

/-- Rules that add to what was there, or to a blank value, add up to one addition. -/
theorem amended_addition (add : ν → α → ν) (blank : ν) {items : List α} (occupied : items ≠ [])
    (value : Option ν) :
    amended (fun item current => add (current.getD blank) item) items value =
      some (items.foldl add (value.getD blank)) := by
  induction items generalizing value with
  | nil => exact absurd rfl occupied
  | cons item rest inductionHypothesis =>
      cases rest with
      | nil => rfl
      | cons next others => exact inductionHypothesis (by simp) _

/-- Additions settle a table if they settle each value. -/
theorem amendAll_addition (key : α → κ) (add : ν → α → ν) (blank : ν) {table : Table κ ν}
    {items : List α} (once : table.keys.Nodup)
    (settles : ∀ wanted (own : List α), let value := (table.find? wanted).getD blank
      own.foldl add (own.foldl add value) = own.foldl add value) :
    let rule := fun item (current : Option ν) => add (current.getD blank) item
    amendAll key rule (amendAll key rule table items) items = amendAll key rule table items := by
  intro rule
  apply amendAll_amendAll key rule once
  intro wanted own
  obtain vacant | occupied := eq_or_ne own []
  · rw [vacant]
    rfl
  · rw [amended_addition add blank occupied, amended_addition add blank occupied, Option.getD_some,
      settles wanted own]

end Table

/-! ## The indices of a history -/

attribute [ext] DefinitionIndex DocumentationIndex TagIndex Tables

namespace DefinitionIndex

theorem winners_foldl_addRecord (index : DefinitionIndex) (records : List DefinitionRecord) :
    (records.foldl addRecord index).winners =
      index.winners.putAll (records.map fun entry => (entry.name, Workspace.siteOf entry)) := by
  induction records generalizing index with
  | nil => rfl
  | cons entry rest inductionHypothesis => exact inductionHypothesis (index.addRecord entry)

/-- Notes the place of a record under its file. -/
def addPlace (places : Table Text DefinitionSite) (entry : DefinitionRecord) :
    Table Text DefinitionSite :=
  places.put entry.uri (Workspace.siteOf entry)

private theorem foldl_addPlace (places : Table Text DefinitionSite)
    (records : List DefinitionRecord) :
    records.foldl addPlace places =
      places.putAll (records.map fun entry => (entry.uri, Workspace.siteOf entry)) := by
  rw [Table.putAll, List.foldl_map]
  rfl

private theorem sources_foldl_addRecord (index : DefinitionIndex)
    (records : List DefinitionRecord) :
    (records.foldl addRecord index).sources =
      Table.amendAll DefinitionRecord.name
        (fun entry places => addPlace (places.getD Table.empty) entry) index.sources records := by
  induction records generalizing index with
  | nil => rfl
  | cons entry rest inductionHypothesis => exact inductionHypothesis (index.addRecord entry)

/-- Records that are entered twice leave the winners and the places of each file as the first time
left them. -/
theorem ofRecords_append_append (earlier records : List DefinitionRecord) :
    ofRecords (earlier ++ records ++ records) = ofRecords (earlier ++ records) := by
  have winners : (ofRecords earlier).winners.keys.Nodup := by
    rw [ofRecords, winners_foldl_addRecord]
    exact Table.nodup_keys_ofList _
  have sources : (ofRecords earlier).sources.keys.Nodup := by
    rw [ofRecords, sources_foldl_addRecord]
    apply Table.nodup_keys_amendAll
    exact List.nodup_nil
  have places (name : Text) :
      (((ofRecords earlier).sources.find? name).getD Table.empty).keys.Nodup := by
    rw [sources_ofRecords]
    exact Table.nodup_keys_ofList _
  have split : ofRecords (earlier ++ records) = records.foldl addRecord (ofRecords earlier) :=
    List.foldl_append
  have again : ofRecords (earlier ++ records ++ records) =
      records.foldl addRecord (records.foldl addRecord (ofRecords earlier)) := by
    rw [← split]
    exact List.foldl_append
  rw [again, split]
  ext1
  · simp only [winners_foldl_addRecord]
    exact Table.putAll_putAll winners _
  · simp only [sources_foldl_addRecord]
    apply Table.amendAll_addition _ _ _ sources
    intro name own value
    simp only [foldl_addPlace]
    exact Table.putAll_putAll (places name) _

end DefinitionIndex

theorem DocumentationIndex.foldl_addRecord_append_append (earlier records : List DefinitionRecord) :
    (earlier ++ records ++ records).foldl addRecord empty =
      (earlier ++ records).foldl addRecord empty := by
  have once : (earlier.foldl addRecord empty).docs.keys.Nodup := by
    rw [docs_foldl_addRecord]
    exact Table.nodup_keys_ofList _
  simp only [List.foldl_append]
  ext1
  simp only [docs_foldl_addRecord] at once ⊢
  exact Table.putAll_putAll once _

namespace TagIndex

/-- Adds the file of a tagging to the files of its tag, if it is known. -/
def addSource (files : List Text) (tagging : Text × Option Text) : List Text :=
  match tagging.2 with
  | some file => files.insert file
  | none => files

private theorem owners_foldl_add (index : TagIndex) (taggings : List (Text × Option Text)) :
    (taggings.foldl (fun current tagging => current.add tagging.1 tagging.2) index).owners =
      Table.amendAll Prod.fst (fun tagging files => addSource (files.getD []) tagging)
        index.owners taggings := by
  induction taggings generalizing index with
  | nil => rfl
  | cons tagging rest inductionHypothesis =>
      exact inductionHypothesis (index.add tagging.1 tagging.2)

private theorem addSource_of_mem {files : List Text} {tagging : Text × Option Text}
    (known : ∀ file, tagging.2 = some file → file ∈ files) : addSource files tagging = files := by
  unfold addSource
  cases source : tagging.2 with
  | none => rfl
  | some file => exact List.insert_of_mem (known file source)

private theorem mem_foldl_addSource {taggings : List (Text × Option Text)} {files : List Text}
    {file : Text} :
    file ∈ taggings.foldl addSource files ↔
      file ∈ files ∨ ∃ tagging ∈ taggings, tagging.2 = some file := by
  induction taggings generalizing files with
  | nil => simp
  | cons tagging rest inductionHypothesis =>
      rw [List.foldl_cons, inductionHypothesis]
      obtain ⟨tag, source⟩ := tagging
      cases source with
      | none => simp [addSource]
      | some other => simp [addSource, eq_comm, or_assoc, or_left_comm]

private theorem foldl_addSource_of_mem {taggings : List (Text × Option Text)} {files : List Text}
    (known : ∀ tagging ∈ taggings, ∀ file, tagging.2 = some file → file ∈ files) :
    taggings.foldl addSource files = files := by
  induction taggings with
  | nil => rfl
  | cons tagging rest inductionHypothesis =>
      rw [List.foldl_cons, addSource_of_mem (known tagging List.mem_cons_self)]
      exact inductionHypothesis fun other member => known other (List.mem_cons_of_mem _ member)

private theorem ofTaggings_append_append (earlier taggings : List (Text × Option Text)) :
    ofTaggings (earlier ++ taggings ++ taggings) = ofTaggings (earlier ++ taggings) := by
  have once : (ofTaggings earlier).owners.keys.Nodup := by
    rw [ofTaggings, owners_foldl_add]
    apply Table.nodup_keys_amendAll
    exact List.nodup_nil
  simp only [ofTaggings, List.foldl_append] at once ⊢
  ext1
  simp only [owners_foldl_add] at once ⊢
  apply Table.amendAll_addition _ _ _ once
  intro tag own files
  apply foldl_addSource_of_mem
  intro tagging member file source
  exact mem_foldl_addSource.mpr (.inr ⟨tagging, member, source⟩)

end TagIndex

/-! ## Tables -/

/-- The attributes of the file that a change indexes. -/
def Change.fileEntry? : Change → Option (Text × AttributeMap)
  | .indexed uri text => some (uri, extractAttributes text)
  | .removed _ | .tagged _ _ => none

/-- Whether a change only adds to the tables. -/
def Change.isAddition : Change → Bool
  | .indexed _ _ | .tagged _ _ => true
  | .removed _ => false

namespace Tables

private theorem files_afterAll_of_additions {tables : Tables} {changes : List Change}
    (additions : ∀ change ∈ changes, change.isAddition) :
    (tables.afterAll changes).files =
      tables.files.putAll (changes.filterMap Change.fileEntry?) := by
  induction changes generalizing tables with
  | nil => rfl
  | cons change rest inductionHypothesis =>
      obtain ⟨first, others⟩ := List.forall_mem_cons.mp additions
      rw [afterAll_cons, inductionHypothesis others]
      cases change with
      | indexed uri text => rfl
      | removed uri => simp [Change.isAddition] at first
      | tagged text source => rfl

/-- Changes that only add leave all tables of a history as they are when they are made again. A
removal would not: the file that it takes out and that is indexed afterwards goes to the end of
the table each time. -/
theorem afterAll_append_append (earlier : List Change) {changes : List Change}
    (additions : ∀ change ∈ changes, change.isAddition) :
    empty.afterAll (earlier ++ changes ++ changes) = empty.afterAll (earlier ++ changes) := by
  ext1
  · rw [afterAll_append, files_afterAll_of_additions additions, afterAll_append,
      files_afterAll_of_additions additions]
    exact Table.putAll_putAll (nodup_files_afterAll earlier) _
  · rw [definitions_afterAll, definitions_afterAll]
    simp only [recordsOf_append]
    exact DefinitionIndex.ofRecords_append_append _ _
  · rw [documentation_afterAll, documentation_afterAll]
    simp only [recordsOf_append]
    exact DocumentationIndex.foldl_addRecord_append_append _ _
  · rw [tags_afterAll, tags_afterAll]
    simp only [taggingsOf, List.flatMap_append]
    exact TagIndex.ofTaggings_append_append _ _

end Tables

/-! ## Workspaces -/

namespace Workspace

theorem isAddition_of_mem_ofText {uri text : Text} {change : Change}
    (member : change ∈ Change.ofText uri text) : change.isAddition := by
  simp only [Change.ofText, List.mem_cons, List.not_mem_nil, or_false] at member
  obtain rfl | rfl := member
  · rfl
  · rfl

private theorem isAddition_of_mem_visits {visits : List Visit} {change : Change}
    (member : change ∈ visits.flatMap Visit.changes) : change.isAddition := by
  obtain ⟨visit, -, inVisit⟩ := List.mem_flatMap.mp member
  cases visit with
  | indexed uri text => exact isAddition_of_mem_ofText inVisit
  | failed failure => exact absurd inVisit List.not_mem_nil

/-- What a run has left in the tables bears the same additions a second time. -/
theorem run_afterAll_afterAll (settings : Settings) (operations : List Operation)
    {changes : List Change} (additions : ∀ change ∈ changes, change.isAddition) :
    let tables := ((empty settings).run operations).tables
    (tables.afterAll changes).afterAll changes = tables.afterAll changes := by
  intro tables
  have again := Tables.afterAll_append_append (history settings operations) additions
  rw [Tables.afterAll_append, Tables.afterAll_append, ← run_empty_tables] at again
  exact again

theorem mem_addRoot_roots (workspace : Workspace) (root : Path) :
    root ∈ (workspace.addRoot root).roots := by
  unfold addRoot
  split
  · assumption
  · exact List.mem_append_right _ List.mem_cons_self

private theorem addRoot_roots_of_mem {workspace : Workspace} {root : Path}
    (known : root ∈ workspace.roots) : (workspace.addRoot root).roots = workspace.roots := by
  rw [addRoot, if_pos known]

/-- What a scan gives depends on the settings of the workspace and on nothing it has indexed. -/
theorem scan_result_of_settings {left right : Workspace} (same : left.settings = right.settings)
    (tree : FileTree) (root : Path) :
    (left.scan tree root).result = (right.scan tree root).result := by
  simp only [scan, same]
  cases tree.directory? (Path.absoluteFrom ⟨.root, tree.current⟩ root).toText with
  | error error => rfl
  | ok found =>
      cases found with
      | none => rfl
      | some place =>
          dsimp only
          cases (traverse right.settings tree [Path.absoluteFrom ⟨.root, tree.current⟩ root] []).2 with
          | none => rfl
          | some fault => rfl

private theorem scan_scan_state (settings : Settings) (operations : List Operation)
    (tree : FileTree) (root : Path) :
    let scanned := ((empty settings).run operations).scan tree root
    (scanned.state.scan tree root).state = scanned.state := by
  intro scanned
  have sameSettings := scan_settings ((empty settings).run operations) tree root
  have sameTables : (scanned.state.scan tree root).state.tables = scanned.state.tables := by
    rw [scan_tables, sameSettings, scan_tables]
    exact run_afterAll_afterAll settings operations fun _ => isAddition_of_mem_visits
  apply eq_of_tables
  · exact scan_settings scanned.state tree root
  · exact sameTables
  · have files : (scanned.state.scan tree root).state.attributes.files =
        scanned.state.attributes.files := congrArg Tables.files sameTables
    rw [scan_merged, sameSettings, files]
    split
    · rename_i formed
      rw [scan_merged, if_pos formed]
    · rfl
  · rw [scan_roots, addRoot_roots_of_mem]
    rw [scan_roots]
    exact mem_addRoot_roots ..

/-- A workspace that any run has led to is left unchanged by indexing again what it has just
indexed: a text with its tags, or everything below a root, whose scan then gives the same report
or ends with the same fault. -/
theorem run_indexes_once (settings : Settings) (operations : List Operation) :
    let workspace := (empty settings).run operations
    (∀ uri text, (workspace.updateWithTags uri text).updateWithTags uri text =
      workspace.updateWithTags uri text) ∧
    ∀ tree root, let scanned := workspace.scan tree root
      (scanned.state.scan tree root).state = scanned.state ∧
        (scanned.state.scan tree root).result = scanned.result := by
  intro workspace
  constructor
  · intro uri text
    have sameTables : ((workspace.updateWithTags uri text).updateWithTags uri text).tables =
        (workspace.updateWithTags uri text).tables := by
      rw [updateWithTags_tables, updateWithTags_tables]
      exact run_afterAll_afterAll settings operations fun _ => isAddition_of_mem_ofText
    apply eq_of_tables
    · exact register_settings ..
    · exact sameTables
    · exact merged_eq_of_isUnited (updateWithTags_isUnited ..) (updateWithTags_isUnited ..)
        sameTables
    · exact register_roots ..
  · intro tree root scanned
    constructor
    · exact scan_scan_state settings operations tree root
    · exact scan_result_of_settings (scan_settings workspace tree root) tree root

end Workspace

end GrammarLens
