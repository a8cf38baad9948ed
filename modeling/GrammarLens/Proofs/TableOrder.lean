import GrammarLens.Table
import Mathlib.Data.List.Basic

/-!
Contract: the order of a table, and the value that each key ends up with.

Owns:
- lists without repetitions: their members and their order, and one more element at the end;
- the keys after a write and after a removal; no key occurs twice;
- tables written entry by entry: the keys stand in order of first arrival, and the
  last value written to a key is the one that is found.

Does not own: what the tables of a workspace hold.
-/

namespace GrammarLens

/-! ## Lists without repetitions -/

section Distinct

variable {α : Type} [BEq α]

theorem length_distinct_le (elements : List α) : (distinct elements).length ≤ elements.length := by
  induction elements with
  | nil => simp [distinct]
  | cons first rest inductionHypothesis =>
      rw [distinct, List.length_cons, List.length_cons]
      exact Nat.succ_le_succ (Nat.le_trans (List.length_filter_le _ _) inductionHypothesis)

/-- The elements of a list, each once, in the order in which they first occur. -/
structure ListsFirst (elements listed : List α) : Prop where
  members : ∀ element, element ∈ listed ↔ element ∈ elements
  ordered : listed.Pairwise fun left right => elements.idxOf left < elements.idxOf right

theorem ListsFirst.nodup {elements listed : List α} (lists : ListsFirst elements listed) :
    listed.Nodup := by
  apply lists.ordered.imp
  intro left right before same
  rw [same] at before
  exact Nat.lt_irrefl _ before

theorem ListsFirst.unique {elements listed others : List α} (first : ListsFirst elements listed)
    (second : ListsFirst elements others) : listed = others := by
  have same : listed.Perm others := by
    rw [List.perm_ext_iff_of_nodup first.nodup second.nodup]
    intro element
    exact (first.members element).trans (second.members element).symm
  apply same.eq_of_pairwise _ first.ordered second.ordered
  intro left right _ _ before after
  exact absurd before (Nat.lt_asymm after)

variable [LawfulBEq α]

@[simp]
theorem mem_distinct {element : α} {elements : List α} :
    element ∈ distinct elements ↔ element ∈ elements := by
  induction elements with
  | nil => simp [distinct]
  | cons first rest inductionHypothesis =>
      by_cases same : element = first
      · simp [distinct, same]
      · simp [distinct, same, inductionHypothesis]

theorem nodup_distinct (elements : List α) : (distinct elements).Nodup := by
  induction elements with
  | nil => simp [distinct]
  | cons first rest inductionHypothesis =>
      rw [distinct, List.nodup_cons]
      exact ⟨by simp, inductionHypothesis.filter _⟩

/-- An element at the end is new only if it did not occur before. -/
theorem distinct_concat (elements : List α) (last : α) :
    distinct (elements ++ [last]) =
      if last ∈ elements then distinct elements else distinct elements ++ [last] := by
  induction elements with
  | nil => simp [distinct]
  | cons first rest inductionHypothesis =>
      rw [List.cons_append, distinct, inductionHypothesis]
      by_cases same : last = first
      · subst same
        by_cases later : last ∈ rest
        · simp [distinct, later]
        · simp [distinct, later, List.filter_append]
      · by_cases later : last ∈ rest
        · simp [distinct, later]
        · simp [distinct, later, same, List.filter_append]

theorem listsFirst_distinct (elements : List α) : ListsFirst elements (distinct elements) where
  members := fun _ => mem_distinct
  ordered := by
    induction elements with
    | nil => exact List.Pairwise.nil
    | cons first rest inductionHypothesis =>
        have later : ∀ element ∈ (distinct rest).filter (fun other => other != first),
            (first :: rest).idxOf element = rest.idxOf element + 1 := by
          intro element member
          apply List.idxOf_cons_ne
          have other := (List.mem_filter.mp member).2
          exact Ne.symm (by simpa using other)
        rw [distinct, List.pairwise_cons]
        constructor
        · intro element member
          rw [List.idxOf_cons_self, later element member]
          exact Nat.succ_pos _
        · apply (inductionHypothesis.filter _).imp_of_mem
          intro left right leftMember rightMember before
          rw [later left leftMember, later right rightMember]
          exact Nat.succ_lt_succ before

end Distinct

namespace Table

variable {κ ν : Type}

variable [BEq κ]

@[simp]
theorem find?_empty (key : κ) : (empty : Table κ ν).find? key = none := rfl

private theorem keys_erase (table : Table κ ν) (key : κ) :
    (table.erase key).keys = table.keys.filter fun other => other != key := by
  simp [keys, erase, List.filter_map, Function.comp_def]

theorem nodup_keys_erase {table : Table κ ν} (once : table.keys.Nodup) (key : κ) :
    (table.erase key).keys.Nodup := by
  rw [keys_erase]
  exact once.filter _

/-- One more entry at the end is one more write. -/
theorem ofList_concat (entries : List (κ × ν)) (key : κ) (value : ν) :
    ofList (entries ++ [(key, value)]) = (ofList entries).put key value := by
  simp [ofList, putAll]

variable [LawfulBEq κ]

/-! ## Keys -/

theorem findIn_isSome_iff (key : κ) (entries : List (κ × ν)) :
    (findIn key entries).isSome ↔ key ∈ entries.map Prod.fst := by
  induction entries with
  | nil => simp [findIn]
  | cons head tail inductionHypothesis =>
      obtain ⟨present, value⟩ := head
      by_cases same : present = key
      · simp [findIn, same]
      · simp [findIn, same, Ne.symm same, inductionHypothesis]

/-- A key is present exactly if something is found for it. -/
theorem mem_keys_iff {table : Table κ ν} {key : κ} :
    key ∈ table.keys ↔ ∃ value, table.find? key = some value := by
  rw [← Option.isSome_iff_exists]
  exact (findIn_isSome_iff key table.entries).symm

private theorem keys_putIn (key : κ) (value : ν) (entries : List (κ × ν)) :
    (putIn key value entries).map Prod.fst =
      if key ∈ entries.map Prod.fst then entries.map Prod.fst
      else entries.map Prod.fst ++ [key] := by
  induction entries with
  | nil => simp [putIn]
  | cons head tail inductionHypothesis =>
      obtain ⟨present, previous⟩ := head
      by_cases same : present = key
      · simp [putIn, same]
      · simp only [putIn, beq_iff_eq, same, if_false, List.map_cons, inductionHypothesis,
          List.mem_cons, Ne.symm same, false_or]
        split <;> simp

/-- A write keeps the place of a key that is present and puts a new key at the end. -/
theorem keys_put (table : Table κ ν) (key : κ) (value : ν) :
    (table.put key value).keys =
      if key ∈ table.keys then table.keys else table.keys ++ [key] :=
  keys_putIn key value table.entries

theorem nodup_keys_put {table : Table κ ν} (once : table.keys.Nodup) (key : κ) (value : ν) :
    (table.put key value).keys.Nodup := by
  rw [keys_put]
  split
  · exact once
  · next absent =>
    rw [List.nodup_append]
    refine ⟨once, by simp, ?_⟩
    intro other member last lastMember same
    rw [List.mem_singleton] at lastMember
    exact absent (lastMember ▸ same ▸ member)

/-! ## Values -/

theorem values_eq_filterMap {table : Table κ ν} (once : table.keys.Nodup) :
    table.values = table.keys.filterMap table.find? := by
  obtain ⟨entries⟩ := table
  change entries.map Prod.snd = (entries.map Prod.fst).filterMap fun key => findIn key entries
  change (entries.map Prod.fst).Nodup at once
  induction entries with
  | nil => rfl
  | cons head tail inductionHypothesis =>
      obtain ⟨key, value⟩ := head
      obtain ⟨fresh, tailOnce⟩ := List.nodup_cons.mp once
      have unseen : (tail.map Prod.fst).filterMap (fun other => findIn other ((key, value) :: tail)) =
          (tail.map Prod.fst).filterMap fun other => findIn other tail := by
        apply List.filterMap_congr
        intro other member
        have different : key ≠ other := fun same => fresh (same ▸ member)
        simp [findIn, different]
      simp only [List.map_cons, List.filterMap_cons, findIn, beq_self_eq_true, if_true]
      rw [inductionHypothesis tailOnce, ← unseen]
      rfl

/-- Where no key occurs twice, the entries are exactly what is found. -/
theorem mem_entries_iff {table : Table κ ν} (once : table.keys.Nodup) {key : κ} {value : ν} :
    (key, value) ∈ table.entries ↔ table.find? key = some value := by
  obtain ⟨entries⟩ := table
  change (key, value) ∈ entries ↔ findIn key entries = some value
  change (entries.map Prod.fst).Nodup at once
  induction entries with
  | nil => simp [findIn]
  | cons head tail inductionHypothesis =>
      obtain ⟨present, other⟩ := head
      obtain ⟨fresh, tailOnce⟩ := List.nodup_cons.mp once
      rw [List.mem_cons, inductionHypothesis tailOnce, findIn]
      by_cases same : present = key
      · subst same
        have absent : findIn present tail = none := by
          rw [← Option.not_isSome_iff_eq_none, findIn_isSome_iff]
          exact fresh
        simp [absent, eq_comm]
      · simp [same, Ne.symm same]

theorem mem_values_iff {table : Table κ ν} (once : table.keys.Nodup) {value : ν} :
    value ∈ table.values ↔ ∃ key, table.find? key = some value := by
  simp only [← mem_entries_iff once]
  constructor
  · intro member
    obtain ⟨⟨key, _⟩, present, rfl⟩ := List.mem_map.mp member
    exact ⟨key, present⟩
  · rintro ⟨key, present⟩
    exact List.mem_map.mpr ⟨(key, value), present, rfl⟩

/-! ## Tables written entry by entry -/

/-- The last value written to a key is the one found; a key not written to keeps what it had. -/
theorem find?_putAll (table : Table κ ν) (entries : List (κ × ν)) (key : κ) :
    (table.putAll entries).find? key =
      ((entries.filter fun entry => entry.1 == key).getLast?.map Prod.snd).or
        (table.find? key) := by
  induction entries generalizing table with
  | nil => simp [putAll]
  | cons head tail inductionHypothesis =>
      obtain ⟨written, value⟩ := head
      change ((table.put written value).putAll tail).find? key = _
      rw [inductionHypothesis, find?_put]
      by_cases same : written = key
      · cases later : (tail.filter fun entry => entry.1 == key).getLast? <;>
          simp [same, List.getLast?_cons, later]
      · simp [same]

private theorem keys_putAll (table : Table κ ν) (entries : List (κ × ν)) (previous : List κ)
    (start : table.keys = distinct previous) :
    (table.putAll entries).keys = distinct (previous ++ entries.map Prod.fst) := by
  induction entries generalizing table previous with
  | nil => simpa [putAll] using start
  | cons head tail inductionHypothesis =>
      obtain ⟨written, value⟩ := head
      have next : (table.put written value).keys = distinct (previous ++ [written]) := by
        rw [keys_put, start, distinct_concat]
        simp only [mem_distinct]
      have whole := inductionHypothesis (table.put written value) (previous ++ [written]) next
      rw [List.append_assoc] at whole
      exact whole

/-- The keys of a table written entry by entry stand in order of first arrival. -/
theorem keys_ofList (entries : List (κ × ν)) :
    (ofList entries).keys = distinct (entries.map Prod.fst) := by
  have whole := keys_putAll (empty : Table κ ν) entries [] rfl
  rwa [List.nil_append] at whole

theorem find?_ofList (entries : List (κ × ν)) (key : κ) :
    (ofList entries).find? key =
      (entries.filter fun entry => entry.1 == key).getLast?.map Prod.snd := by
  rw [ofList, find?_putAll, find?_empty, Option.or_none]

theorem nodup_keys_ofList (entries : List (κ × ν)) : (ofList entries).keys.Nodup := by
  rw [keys_ofList]
  exact nodup_distinct _

end Table

end GrammarLens
