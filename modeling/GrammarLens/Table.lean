/-!
Contract: tables in order of first insertion. Writing to a key that is present keeps
its place; a key that was erased and is written again goes to the end.

Owns:
- lists without repetitions;
- the table type and its view as a list of entries;
- look-up, insertion, removal;
- the laws of look-up after insertion and removal.
-/

namespace GrammarLens

/-- The elements of a list without later repetitions. -/
def distinct {α : Type} [BEq α] : List α → List α
  | [] => []
  | first :: rest => first :: (distinct rest).filter fun other => other != first

/-- A finite map that remembers the order in which its keys first arrived. -/
structure Table (κ ν : Type) where
  entries : List (κ × ν)
deriving DecidableEq, Repr

namespace Table

variable {κ ν : Type}

def empty : Table κ ν := ⟨[]⟩

/-- The keys, in order of first insertion. -/
def keys (table : Table κ ν) : List κ := table.entries.map Prod.fst

/-- The values, in the order of their keys. -/
def values (table : Table κ ν) : List ν := table.entries.map Prod.snd

def size (table : Table κ ν) : Nat := table.entries.length

variable [BEq κ]

/-- The value of the first entry with the given key. -/
def findIn (key : κ) : List (κ × ν) → Option ν
  | [] => none
  | (other, value) :: rest => if other == key then some value else findIn key rest

/-- Overwrites the first entry with the given key, or adds one at the end. -/
def putIn (key : κ) (value : ν) : List (κ × ν) → List (κ × ν)
  | [] => [(key, value)]
  | entry :: rest => if entry.1 == key then (key, value) :: rest else entry :: putIn key value rest

def find? (table : Table κ ν) (key : κ) : Option ν := findIn key table.entries

def contains (table : Table κ ν) (key : κ) : Bool := (table.find? key).isSome

def put (table : Table κ ν) (key : κ) (value : ν) : Table κ ν :=
  ⟨putIn key value table.entries⟩

def erase (table : Table κ ν) (key : κ) : Table κ ν :=
  ⟨table.entries.filter fun entry => entry.1 != key⟩

/-- Writes entries one after the other. -/
def putAll (table : Table κ ν) (entries : List (κ × ν)) : Table κ ν :=
  entries.foldl (fun current entry => current.put entry.1 entry.2) table

def ofList (entries : List (κ × ν)) : Table κ ν := empty.putAll entries

variable [LawfulBEq κ]

theorem findIn_putIn (key other : κ) (value : ν) (entries : List (κ × ν)) :
    findIn other (putIn key value entries) =
      if key == other then some value else findIn other entries := by
  induction entries with
  | nil => simp [putIn, findIn]
  | cons head tail inductionHypothesis =>
    obtain ⟨present, previous⟩ := head
    by_cases same : present = key
    · subst same
      by_cases asked : present = other <;> simp [putIn, findIn, asked]
    · by_cases asked : present = other
      · subst asked
        simp [putIn, findIn, same, Ne.symm same]
      · simp [putIn, findIn, same, asked, inductionHypothesis]

/-- Reading after a write gives what was written, and leaves every other key alone. -/
@[simp]
theorem find?_put (table : Table κ ν) (key other : κ) (value : ν) :
    (table.put key value).find? other = if key == other then some value else table.find? other :=
  findIn_putIn key other value table.entries

theorem findIn_filter_ne (key other : κ) (entries : List (κ × ν)) :
    findIn other (entries.filter fun entry => entry.1 != key) =
      if key == other then none else findIn other entries := by
  induction entries with
  | nil => simp [findIn]
  | cons head tail inductionHypothesis =>
    obtain ⟨present, previous⟩ := head
    by_cases same : present = key
    · subst same
      by_cases asked : present = other <;> simp_all [findIn]
    · by_cases asked : present = other
      · subst asked
        simp [findIn, same, Ne.symm same]
      · simp_all [findIn]

/-- Reading after a removal finds the key gone and every other key as before. -/
@[simp]
theorem find?_erase (table : Table κ ν) (key other : κ) :
    (table.erase key).find? other = if key == other then none else table.find? other :=
  findIn_filter_ne key other table.entries

end Table

end GrammarLens
