import GrammarLens.Text.Blank
import GrammarLens.Proofs.NameShape

/-!
Contract: where the names of a text begin and end.

Owns:
- the longest run of a character class at either end of a text, and what is left without it;
- the character before an offset, and slices, of a text that is put together from pieces;
- the classes that no name character belongs to;
- runs: stretches of name characters that end at both sides.

Does not own: which runs a query or a pattern picks out.
-/

namespace GrammarLens

/-- The last element of a list that follows another element. -/
theorem getLast?_cons_or {α : Type} (first : α) (rest : List α) (previous : Option α) :
    (first :: rest).getLast?.or previous = rest.getLast?.or (some first) := by
  rw [List.getLast?_cons]
  cases rest.getLast? <;> rfl

/-! ## Runs at either end -/

namespace Text

variable {belongs : Char → Bool}

theorem head?_dropWhile {text : Text} {c : Char} (next : (text.dropWhile belongs).head? = some c) :
    belongs c = false := by
  have stops := List.head?_dropWhile_not belongs text
  rw [next] at stops
  simpa using stops

/-- A leading run does not reach past a character of another class. -/
theorem takeWhile_append_of_stops {text rest : Text}
    (ends : ∀ c, rest.head? = some c → belongs c = false) :
    (text ++ rest).takeWhile belongs = text.takeWhile belongs := by
  have none : rest.takeWhile belongs = [] := by
    cases rest with
    | nil => rfl
    | cons c others =>
        rw [List.takeWhile_cons, ends c rfl]
        rfl
  rw [List.takeWhile_append, none, List.append_nil]
  split
  · next whole => rw [(List.takeWhile_prefix belongs).eq_of_length whole]
  · rfl

theorem length_takeWhile_le_of_stops {text rest : Text} {c : Char} (last : text.getLast? = some c)
    (stops : belongs c = false) : ((text ++ rest).takeWhile belongs).length ≤ text.length := by
  rw [List.takeWhile_append]
  split
  · next whole =>
    have same := (List.takeWhile_prefix belongs).eq_of_length whole
    have member := List.takeWhile_eq_self_iff.mp same c (List.mem_of_getLast? last)
    simp [stops] at member
  · exact (List.takeWhile_prefix belongs).length_le

theorem dropTrailing_append_trailing (belongs : Char → Bool) (text : Text) :
    dropTrailing belongs text ++ trailing belongs text = text := by
  rw [dropTrailing, trailing, ← List.reverse_append, List.takeWhile_append_dropWhile,
    List.reverse_reverse]

theorem mem_trailing {text : Text} {c : Char} (member : c ∈ trailing belongs text) : belongs c := by
  rw [trailing, List.mem_reverse] at member
  exact List.mem_takeWhile_imp member

theorem getLast?_dropTrailing {text : Text} {c : Char}
    (last : (dropTrailing belongs text).getLast? = some c) : belongs c = false := by
  rw [dropTrailing, List.getLast?_reverse] at last
  exact head?_dropWhile last

theorem trailing_of_forall {run : Text} (whole : ∀ c ∈ run, belongs c) :
    trailing belongs run = run := by
  have reversedWhole : run.reverse.takeWhile belongs = run.reverse :=
    List.takeWhile_eq_self_iff.mpr (by simpa using whole)
  rw [trailing, reversedWhole, List.reverse_reverse]

theorem dropTrailing_of_forall {run : Text} (whole : ∀ c ∈ run, belongs c) :
    dropTrailing belongs run = [] := by
  have parts := dropTrailing_append_trailing belongs run
  rw [trailing_of_forall whole] at parts
  simpa using parts

section Stops

variable {before run : Text} (stops : ∀ c, before.getLast? = some c → belongs c = false)

include stops

theorem trailing_eq_nil : trailing belongs before = [] := by
  rw [trailing, List.reverse_eq_nil_iff]
  cases reversed : before.reverse with
  | nil => rfl
  | cons c rest =>
      have last : before.getLast? = some c := by
        rw [← List.head?_reverse, reversed, List.head?_cons]
      rw [List.takeWhile_cons, stops c last]
      rfl

theorem dropTrailing_eq_self : dropTrailing belongs before = before := by
  have parts := dropTrailing_append_trailing belongs before
  rwa [trailing_eq_nil stops, List.append_nil] at parts

/-- A final run does not reach past a character of another class. -/
theorem trailing_append : trailing belongs (before ++ run) = trailing belongs run := by
  have none : before.reverse.takeWhile belongs = [] :=
    List.reverse_eq_nil_iff.mp (trailing_eq_nil stops)
  rw [trailing, trailing, List.reverse_append, List.takeWhile_append]
  split
  · next whole =>
    rw [none, List.append_nil, (List.takeWhile_prefix belongs).eq_of_length whole]
  · rfl

theorem dropTrailing_append :
    dropTrailing belongs (before ++ run) = before ++ dropTrailing belongs run := by
  have whole := dropTrailing_append_trailing belongs (before ++ run)
  have parts := dropTrailing_append_trailing belongs run
  rw [trailing_append stops] at whole
  apply List.append_cancel_right
  rw [whole, List.append_assoc, parts]

end Stops

/-! ## Neighbours and slices -/

theorem before?_eq_getLast?_take {text : Text} {offset : Nat} (inside : offset ≤ text.length) :
    text.before? offset = (text.take offset).getLast? := by
  cases offset with
  | zero => rfl
  | succ offset =>
      rw [before?, List.getLast?_eq_getElem?, List.length_take, Nat.min_eq_left inside,
        Nat.add_sub_cancel, List.getElem?_take_of_lt (by omega)]

theorem before?_append (before rest : Text) :
    (before ++ rest).before? before.length = before.getLast? := by
  rw [before?_eq_getLast?_take (by simp), List.take_left]

theorem slice_append (before middle rest : Text) :
    (before ++ middle ++ rest).slice before.length (before.length + middle.length) = middle := by
  rw [slice, ← List.length_append, List.take_left, List.drop_left]

theorem mem_slice {text : Text} {start index finish : Nat} {c : Char}
    (found : text[index]? = some c) (fromStart : start ≤ index) (untilFinish : index < finish) :
    c ∈ text.slice start finish := by
  rw [slice, List.mem_iff_getElem?]
  refine ⟨index - start, ?_⟩
  rw [List.getElem?_drop, Nat.add_sub_cancel' fromStart, List.getElem?_take_of_lt untilFinish,
    found]

section Slice

variable {text : Text} {start middle finish : Nat}

theorem length_slice (inside : finish ≤ text.length) :
    (text.slice start finish).length = finish - start := by
  rw [slice, List.length_drop, List.length_take, Nat.min_eq_left inside]

theorem slice_append_slice (first : start ≤ middle) (second : middle ≤ finish) :
    text.slice start middle ++ text.slice middle finish = text.slice start finish := by
  have front : text.slice start middle = (text.slice start finish).take (middle - start) := by
    rw [slice, slice, ← List.drop_take, List.take_take, Nat.min_eq_left second]
  have back : text.slice middle finish = (text.slice start finish).drop (middle - start) := by
    rw [slice, slice, List.drop_drop, Nat.add_sub_cancel' first]
  rw [front, back, List.take_append_drop]

theorem slice_append_drop (opens : start ≤ finish) :
    text.slice start finish ++ text.drop finish = text.drop start := by
  have pieces := List.take_append_drop (finish - start) (text.drop start)
  rw [List.drop_drop, Nat.add_sub_cancel' opens] at pieces
  rw [slice, List.drop_take, pieces]

theorem getLast?_slice (inside : finish ≤ text.length) {c : Char}
    (last : (text.slice start finish).getLast? = some c) : text.before? finish = some c := by
  rw [slice, List.getLast?_drop] at last
  split at last
  · simp at last
  · rw [before?_eq_getLast?_take inside, last]

theorem getLast?_slice_of_lt (occupied : start < finish) (inside : finish ≤ text.length) :
    (text.slice start finish).getLast? = text.before? finish := by
  rw [slice, List.getLast?_drop, List.length_take, Nat.min_eq_left inside,
    if_neg (by omega), before?_eq_getLast?_take inside]

theorem head?_slice {c : Char} (next : (text.slice start finish).head? = some c) :
    text[start]? = some c := by
  rw [slice, List.head?_drop, List.getElem?_take] at next
  split at next
  · exact next
  · simp at next

theorem slice_succ {c : Char} (opens : start ≤ finish) (here : text[finish]? = some c) :
    text.slice start (finish + 1) = text.slice start finish ++ [c] := by
  have inside : finish < text.length := (List.getElem?_eq_some_iff.mp here).1
  have reached : start ≤ (text.take finish).length := by
    rw [List.length_take]
    omega
  rw [slice, slice, List.take_add_one, here, Option.toList_some,
    List.drop_append_of_le_length reached]

end Slice

end Text

/-! ## Character classes -/

theorem ne_of_isNameChar {c d : Char} (belongs : isNameChar c) (other : isNameChar d = false) :
    c ≠ d := by
  rintro rfl
  simp [other] at belongs

theorem isNameChar_of_isTagChar {c : Char} (belongs : isTagChar c) : isNameChar c := by
  simp only [isTagChar, isNameChar, Bool.or_eq_true] at belongs ⊢
  exact .inl belongs

theorem toNat_of_isNameChar {c : Char} (belongs : isNameChar c) : 33 ≤ c.toNat ∧ c.toNat < 127 := by
  have letters : c.isAlpha =
      (decide ('A'.val ≤ c.val ∧ c.val ≤ 'Z'.val) ||
        decide ('a'.val ≤ c.val) && decide (c.val ≤ 'z'.val)) := rfl
  simp only [isNameChar, Char.isAlphanum, letters, Char.isDigit, Bool.or_eq_true,
    Bool.and_eq_true, decide_eq_true_eq, beq_iff_eq, Char.toNat, UInt32.le_iff_toNat_le]
    at belongs ⊢
  rcases belongs with ((((letter | digit) | rfl) | rfl) | rfl) | rfl
  · simp only [Char.reduceVal, UInt32.reduceToNat] at letter
    omega
  · simp only [Char.reduceVal, UInt32.reduceToNat] at digit
    omega
  · decide
  · decide
  · decide
  · decide

theorem not_isNameChar_of_isBlank {c : Char} (blank : Text.isBlank c) : isNameChar c = false := by
  by_contra belongs
  have narrow := toNat_of_isNameChar (by simpa using belongs)
  simp [Text.isBlank, Text.inRanges, Text.blankRanges] at blank
  omega

theorem IsName.exists_getLast? {name : Text} (isName : IsName name) :
    ∃ c, name.getLast? = some c ∧ isNameChar c := by
  obtain ⟨c, last⟩ := Option.ne_none_iff_exists'.mp (mt List.getLast?_eq_none_iff.mp isName.1)
  exact ⟨c, last, isName.2 c (List.mem_of_getLast? last)⟩

theorem IsName.head?_append_ne {run : Text} {c : Char} (name : IsName run)
    (other : isNameChar c = false) (rest : Text) : (run ++ rest).head? ≠ some c := by
  intro first
  cases run with
  | nil => exact name.1 rfl
  | cons d others =>
      have same : d = c := Option.some.inj first
      exact ne_of_isNameChar (name.2 d List.mem_cons_self) other same

/-! ## Runs -/

/-- A stretch of name characters that neither of its neighbours belongs to. -/
structure IsRun (text : Text) (start finish : Nat) : Prop where
  occupied : start < finish
  within : finish ≤ text.length
  named : ∀ c ∈ text.slice start finish, isNameChar c
  before : ∀ c, text.before? start = some c → isNameChar c = false
  after : ∀ c, text[finish]? = some c → isNameChar c = false

theorem isRun_append {before run rest : Text} (name : IsName run)
    (stops : ∀ c, before.getLast? = some c → isNameChar c = false)
    (ends : ∀ c, rest.head? = some c → isNameChar c = false) :
    IsRun (before ++ run ++ rest) before.length (before.length + run.length) where
  occupied := by
    have positive := List.length_pos_iff.mpr name.1
    omega
  within := by simp
  named := by
    rw [Text.slice_append]
    exact name.2
  before := by
    rw [List.append_assoc, Text.before?_append]
    exact stops
  after := by
    rw [← List.length_append, List.getElem?_append_right (by simp), Nat.sub_self,
      ← List.head?_eq_getElem?]
    exact ends

theorem IsRun.exists_split {text : Text} {start finish : Nat} (run : IsRun text start finish) :
    ∃ before name rest, text = before ++ name ++ rest ∧ IsName name ∧
      (∀ c, before.getLast? = some c → isNameChar c = false) ∧
      (∀ c, rest.head? = some c → isNameChar c = false) ∧
      start = before.length ∧ finish = before.length + name.length := by
  have occupied := run.occupied
  have within := run.within
  have length : (text.slice start finish).length = finish - start := Text.length_slice within
  have taken : (text.take start).length = start := List.length_take_of_le (by omega)
  refine ⟨text.take start, text.slice start finish, text.drop finish, ?_, ⟨?_, run.named⟩, ?_, ?_,
    taken.symm, by omega⟩
  · rw [List.append_assoc, Text.slice_append_drop (Nat.le_of_lt occupied), List.take_append_drop]
  · apply List.ne_nil_of_length_pos
    omega
  · rw [← Text.before?_eq_getLast?_take (by omega)]
    exact run.before
  · rw [List.head?_drop]
    exact run.after

end GrammarLens
