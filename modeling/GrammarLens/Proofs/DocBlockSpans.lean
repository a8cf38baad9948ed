import GrammarLens.Proofs.DocBlocks
import GrammarLens.Proofs.WordLookup

/-!
Contract: how far the documentation that is found reaches.

Owns:
- the delimiters inside a part of a text, and inside what trimming leaves of it;
- the block that is read from an offset: it opens at the first delimiter, while its definition
  runs;
- the own closing delimiter of a block, and whether the block can be closed there;
- when documentation holds a delimiter: exactly if its block could not be closed at its own
  closing delimiter, and then it has run on past that one.

Does not own: the period behind a block.

## Why one opening is enough

Whatever closes a block closes every block that opens before it as well. So the first delimiter
opens a block that can be closed if any does, and the search never goes on to another one.

## Why three places

In a row of more than three quotes several delimiters overlap, and the block may be closed at the
second or third of them. The first quotes of the row then belong to the documentation, but they are
too few to be a delimiter.
-/

namespace GrammarLens.DocBlock

/-! ## Delimiters inside a text -/

theorem delimiterAt_iff {text : Text} {place : Nat} :
    DelimiterAt text place ↔ ∀ step < 3, text[place + step]? = some '"' := by
  have quotes : ['"', '"', '"'] = List.replicate 3 '"' := rfl
  rw [DelimiterAt, opensDoc_iff, quotes, List.prefix_iff_getElem?]
  simp only [List.length_replicate, List.getElem_replicate, List.getElem?_drop]

theorem delimiterAt_slice_iff {text : Text} {start finish place : Nat} :
    DelimiterAt (text.slice start finish) place ↔
      DelimiterAt text (start + place) ∧ start + place + 3 ≤ finish := by
  have shown : ∀ step, (text.slice start finish)[place + step]? =
      if start + place + step < finish then text[start + place + step]? else none := by
    intro step
    rw [Text.slice, List.getElem?_drop, List.getElem?_take, Nat.add_assoc start place step]
  simp only [delimiterAt_iff, shown]
  constructor
  · intro quotes
    have inside : ∀ step < 3, start + place + step < finish := by
      intro step small
      by_contra outside
      simpa [outside] using quotes step small
    refine ⟨?_, inside 2 (by decide)⟩
    intro step small
    simpa [inside step small] using quotes step small
  · rintro ⟨quotes, inside⟩ step small
    rw [if_pos (by omega), quotes step small]

/-- Trimming takes no delimiter away and makes none. -/
theorem IsTrimmed.exists_delimiterAt_iff {text doc : Text} (trimmed : IsTrimmed text doc) :
    (∃ place, DelimiterAt doc place) ↔ ∃ place, DelimiterAt text place := by
  obtain ⟨leading, trailing, split, before, after⟩ := trimmed.parts
  have inner : doc = text.slice leading.length (leading.length + doc.length) := by
    rw [split, ← List.append_assoc, Text.slice_append]
  constructor
  · rintro ⟨place, delimiter⟩
    rw [inner, delimiterAt_slice_iff] at delimiter
    exact ⟨_, delimiter.1⟩
  · rintro ⟨place, delimiter⟩
    have quotes := delimiterAt_iff.mp delimiter
    -- A quote is not blank, so the first one is not before the inside and the last one not behind.
    have reached : leading.length ≤ place := by
      by_contra early
      have first := quotes 0 (by decide)
      rw [split, List.getElem?_append_left (by omega)] at first
      exact absurd (before '"' (List.mem_of_getElem? first)) (by decide)
    have fits : place + 2 < leading.length + doc.length := by
      by_contra late
      have last := quotes 2 (by decide)
      rw [split, List.getElem?_append_right (by omega),
        List.getElem?_append_right (by omega)] at last
      exact absurd (after '"' (List.mem_of_getElem? last)) (by decide)
    refine ⟨place - leading.length, ?_⟩
    rw [inner, delimiterAt_slice_iff, Nat.add_sub_cancel' reached]
    exact ⟨delimiter, fits⟩

/-! ## The block that is read -/

/-- A period that no name character follows. -/
def StandsAlone (text : Text) (place : Nat) : Prop :=
  text[place]? = some '.' ∧ ∀ c, text[place + 1]? = some c → isNameChar c = false

/-- The delimiter at `opening` is the first one from `start` on, and no period that stands alone
comes before it. -/
structure Opens (text : Text) (start opening : Nat) : Prop where
  first : IsFirstFrom (DelimiterAt text) start opening
  running : ∀ place, start ≤ place → place < opening → ¬ StandsAlone text place

section Opening

variable {text : Text} {start opening closing place : Nat}

theorem EndsAt.standsAlone (ends : EndsAt text place) : StandsAlone text place := by
  obtain ⟨period, next, follows, other⟩ := ends
  refine ⟨period, ?_⟩
  intro c same
  obtain rfl := Option.some.inj (follows.symm.trans same)
  exact other

theorem StandsAlone.endsAt (alone : StandsAlone text place) (inside : place + 1 < text.length) :
    EndsAt text place :=
  ⟨alone.1, _, List.getElem?_eq_getElem inside, alone.2 _ (List.getElem?_eq_getElem inside)⟩

private theorem length_of_delimiterAt (delimiter : DelimiterAt text place) :
    place + 3 ≤ text.length := by
  have last := delimiterAt_iff.mp delimiter 2 (by decide)
  exact (List.getElem?_eq_some_iff.mp last).1

/-- The definition that is read from `start` runs up to the first delimiter exactly if its end lies
behind that delimiter. -/
theorem opens_iff {limit : Nat} (ends : IsLimit text start limit) :
    Opens text start opening ↔
      IsFirstFrom (DelimiterAt text) start opening ∧ opening + 3 ≤ limit := by
  constructor
  · rintro ⟨first, running⟩
    refine ⟨first, ?_⟩
    rcases ends with found | ⟨rfl, -⟩
    · by_contra short
      by_cases before : limit < opening
      · exact running limit found.reached before found.here.standsAlone
      · -- The limit is a period, so it is none of the three quotes.
        have quote := delimiterAt_iff.mp first.here (limit - opening) (by omega)
        rw [Nat.add_sub_cancel' (Nat.le_of_not_lt before), found.here.1] at quote
        simp at quote
    · exact length_of_delimiterAt first.here
  · rintro ⟨first, fits⟩
    refine ⟨first, ?_⟩
    intro place reached before alone
    have inside := length_of_delimiterAt first.here
    have endsThere := alone.endsAt (by omega)
    rcases ends with found | ⟨-, none⟩
    · exact found.first place reached (by omega) endsThere
    · exact none place reached endsThere

theorem Closes.of_earlier {earlier : Nat} (closes : Closes text opening closing)
    (before : earlier ≤ opening) : Closes text earlier closing where
  behind := by
    have behind := closes.behind
    omega
  delimiter := closes.delimiter
  ending := closes.ending

theorem Enumerates.filter_eq_cons {openings : List Nat} {limit : Nat}
    (enumerates : Enumerates text start openings)
    (first : IsFirstFrom (DelimiterAt text) start opening) (fits : opening + 3 ≤ limit) :
    ∃ others, (openings.filter fun place => place + 3 ≤ limit) = opening :: others := by
  cases enumerates with
  | done none => exact absurd first.here (none opening first.reached)
  | next found behind =>
      obtain rfl := found.unique first
      exact ⟨_, List.filter_cons_of_pos (by simpa using fits)⟩

theorem Enumerates.exists_first {openings : List Nat} {limit : Nat}
    (enumerates : Enumerates text start openings)
    (member : opening ∈ openings.filter fun place => place + 3 ≤ limit) :
    ∃ first, IsFirstFrom (DelimiterAt text) start first ∧ first + 3 ≤ limit ∧
      first ≤ opening := by
  obtain ⟨listed, fits⟩ := List.mem_filter.mp member
  have bound : opening + 3 ≤ limit := by simpa using fits
  obtain ⟨reached, delimiter⟩ := enumerates.delimiterAt_of_mem listed
  obtain ⟨first, isFirst⟩ := exists_isFirstFrom reached delimiter
  have least : first ≤ opening := by
    by_contra later
    exact isFirst.first opening reached (Nat.lt_of_not_le later) delimiter
  exact ⟨first, isFirst, by omega, least⟩

/-- The first opening whose block can be closed is the first one of all. -/
theorem isFirstBlock_iff {openings : List Nat} {limit : Nat} (ends : IsLimit text start limit)
    (enumerates : Enumerates text start openings) :
    IsFirstBlock text (openings.filter fun place => place + 3 ≤ limit) opening closing ↔
      Opens text start opening ∧ IsLeastClosing text opening closing := by
  rw [opens_iff ends]
  constructor
  · rintro ⟨⟨passed, others, split, never⟩, closed⟩
    refine ⟨?_, closed⟩
    have member : opening ∈ openings.filter fun place => place + 3 ≤ limit := by
      rw [split]
      exact List.mem_append_right _ List.mem_cons_self
    obtain ⟨first, isFirst, fits, before⟩ := enumerates.exists_first member
    obtain ⟨rest, head⟩ := enumerates.filter_eq_cons isFirst fits
    rw [head] at split
    cases passed with
    | nil =>
        obtain ⟨rfl, -⟩ := List.cons.inj split
        exact ⟨isFirst, fits⟩
    | cons earlier passed =>
        obtain ⟨rfl, -⟩ := List.cons.inj split
        exact absurd (closed.toCloses.of_earlier before) (never first List.mem_cons_self closing)
  · rintro ⟨⟨isFirst, fits⟩, closed⟩
    obtain ⟨rest, head⟩ := enumerates.filter_eq_cons isFirst fits
    exact ⟨⟨[], rest, head, by simp⟩, closed⟩

/-- Documentation is found at the first opening, if the definition still runs there and the block
can be closed. -/
theorem find?_eq_some_iff {doc : Text} :
    find? text start = some doc ↔
      ∃ opening closing, Opens text start opening ∧ IsLeastClosing text opening closing ∧
        IsTrimmed (text.slice (opening + 3) closing) doc := by
  obtain ⟨limit, ends⟩ := exists_isLimit text start
  have enumerates : Enumerates text start (delimitersFrom start (text.drop start)) :=
    Enumerates.of_drop_eq rfl
  have found := findSome?_body?_iff.mpr (documents_find? ends enumerates)
  rw [← found, findSome?_body?_iff]
  simp only [Documents, isFirstBlock_iff ends enumerates, and_assoc]

end Opening

/-! ## Blocks -/

/-- A block of a text: its opening delimiter, the first delimiter behind that, which is its own
closing one, the place up to which it is read, and the documentation that is read. -/
structure IsBlock (text : Text) (opening own closing : Nat) (doc : Text) : Prop where
  delimiter : DelimiterAt text opening
  own : IsFirstFrom (DelimiterAt text) (opening + 3) own
  closed : IsLeastClosing text opening closing
  trimmed : IsTrimmed (text.slice (opening + 3) closing) doc

/-- A block can be closed at its own closing delimiter, or at one that shares a quote with it. -/
def ClosesItself (text : Text) (opening own : Nat) : Prop :=
  ∃ place, own ≤ place ∧ place < own + 3 ∧ Closes text opening place

namespace IsBlock

variable {text doc : Text} {opening own closing : Nat}

theorem own_le (block : IsBlock text opening own closing doc) {place : Nat}
    (behind : opening + 3 ≤ place) (delimiter : DelimiterAt text place) : own ≤ place := by
  by_contra before
  exact block.own.first place behind (Nat.lt_of_not_le before) delimiter

/-- Documentation holds a delimiter exactly if it reaches past the whole own delimiter. -/
theorem exists_delimiterAt_iff (block : IsBlock text opening own closing doc) :
    (∃ place, DelimiterAt doc place) ↔ own + 3 ≤ closing := by
  simp only [block.trimmed.exists_delimiterAt_iff, delimiterAt_slice_iff]
  constructor
  · rintro ⟨place, delimiter, fits⟩
    have first := block.own_le (Nat.le_add_right _ _) delimiter
    omega
  · intro past
    refine ⟨own - (opening + 3), ?_⟩
    rw [Nat.add_sub_cancel' block.own.reached]
    exact ⟨block.own.here, past⟩

private theorem past_own_iff (block : IsBlock text opening own closing doc) :
    own + 3 ≤ closing ↔ ¬ ClosesItself text opening own := by
  constructor
  · rintro past ⟨place, -, near, closes⟩
    exact block.closed.least place (by omega) closes
  · intro unclosed
    by_contra near
    have reached := block.own_le block.closed.behind block.closed.delimiter
    exact unclosed ⟨closing, reached, by omega, block.closed.toCloses⟩

end IsBlock

private theorem exists_block_of_find? {text doc : Text} {start : Nat}
    (found : find? text start = some doc) :
    ∃ opening own closing, Opens text start opening ∧ IsBlock text opening own closing doc := by
  obtain ⟨opening, closing, opens, closed, trimmed⟩ := find?_eq_some_iff.mp found
  obtain ⟨own, first⟩ := exists_isFirstFrom closed.behind closed.delimiter
  exact ⟨opening, own, closing, opens, opens.first.here, first, closed, trimmed⟩

private theorem find?_append (before text : Text) (start : Nat) :
    find? (before ++ text) (before.length + start) = find? text start := by
  rw [find?, find?, List.drop_length_add_append]

/-- Whatever documentation is found, from any offset and for any definition, stands in the block
that opens first, while the definition runs. It holds a delimiter exactly if its block cannot be
closed at its own closing delimiter; it then runs on past it. -/
theorem doc_holds_delimiter_iff (text uri : Text) :
    (∀ start doc, find? text start = some doc →
      ∃ opening own closing, Opens text start opening ∧ IsBlock text opening own closing doc ∧
        ((∃ place, DelimiterAt doc place) ↔ ¬ ClosesItself text opening own) ∧
        (¬ ClosesItself text opening own ↔ own + 3 ≤ closing)) ∧
    ∀ entry ∈ extractDefinitions text uri, ∀ doc, entry.doc = some doc →
      ∃ before gap rest opening own closing,
        text = before ++ (entry.name ++ (gap ++ ':' :: '=' :: rest)) ∧
        Opens text (before.length + (entry.name.length + gap.length + 2)) opening ∧
        IsBlock text opening own closing doc ∧
        ((∃ place, DelimiterAt doc place) ↔ ¬ ClosesItself text opening own) ∧
        (¬ ClosesItself text opening own ↔ own + 3 ≤ closing) := by
  have reads : ∀ {start doc}, find? text start = some doc →
      ∃ opening own closing, Opens text start opening ∧ IsBlock text opening own closing doc ∧
        ((∃ place, DelimiterAt doc place) ↔ ¬ ClosesItself text opening own) ∧
        (¬ ClosesItself text opening own ↔ own + 3 ≤ closing) := by
    intro start doc found
    obtain ⟨opening, own, closing, opens, block⟩ := exists_block_of_find? found
    exact ⟨opening, own, closing, opens, block,
      block.exists_delimiterAt_iff.trans block.past_own_iff, block.past_own_iff.symm⟩
  refine ⟨fun start doc => reads, ?_⟩
  intro entry member doc documented
  obtain ⟨-, before, gap, rest, split, -, found⟩ := exists_of_mem_extractDefinitions member
  rw [documented, ← find?_append before, ← split] at found
  obtain ⟨opening, own, closing, reading⟩ := reads found.symm
  exact ⟨before, gap, rest, opening, own, closing, split, reading⟩

/-- Two definitions with a block each. Behind the first block stand two names, not one. -/
def twoDefinitions : Text := "Foo := \"\"\"a\"\"\" x y.\nBar := \"\"\"b\"\"\" .".toList

/-- The first block of `twoDefinitions`, read up to the end of the second. -/
def runningDoc : Text := "a\"\"\" x y.\nBar := \"\"\"b".toList

theorem doc_holds_delimiter_iff_twoDefinitions :
    (∃ opening own closing, Opens twoDefinitions 6 opening ∧
      IsBlock twoDefinitions opening own closing runningDoc ∧
      ¬ ClosesItself twoDefinitions opening own ∧ own + 3 ≤ closing) ∧
    ∃ opening own closing, IsBlock twoDefinitions opening own closing "b".toList ∧
      ClosesItself twoDefinitions opening own ∧ closing < own + 3 := by
  have documented := doc_holds_delimiter_iff twoDefinitions "u".toList
  constructor
  · obtain ⟨opening, own, closing, opens, block, holds, past⟩ :=
      documented.1 6 runningDoc (by decide +kernel)
    have delimiter : DelimiterAt runningDoc 1 := rfl
    have unclosed := holds.mp ⟨1, delimiter⟩
    exact ⟨opening, own, closing, opens, block, unclosed, past.mp unclosed⟩
  · obtain ⟨_, _, _, opening, own, closing, -, -, block, holds, past⟩ :=
      documented.2 ⟨"Bar".toList, "u".toList, ⟨1, 0, 1, 3⟩, some "b".toList⟩ (by decide +kernel)
        "b".toList rfl
    have closesItself : ClosesItself twoDefinitions opening own := by
      by_contra unclosed
      obtain ⟨place, delimiter⟩ := holds.mpr unclosed
      have quote := List.mem_of_getElem? (delimiterAt_iff.mp delimiter 0 (by decide))
      exact absurd quote (by decide)
    have near : ¬ own + 3 ≤ closing := fun late => past.mpr late closesItself
    exact ⟨opening, own, closing, block, closesItself, Nat.lt_of_not_le near⟩

/-- The documentation of the first definition runs on into the second one. -/
theorem extractDefinitions_runs_on_twoDefinitions :
    extractDefinitions twoDefinitions "u".toList =
      [⟨"Foo".toList, "u".toList, ⟨0, 0, 0, 3⟩, some runningDoc⟩,
        ⟨"Bar".toList, "u".toList, ⟨1, 0, 1, 3⟩, some "b".toList⟩] ∧
    DelimiterAt runningDoc 1 ∧ DelimiterAt runningDoc 17 :=
  ⟨by decide +kernel, rfl, rfl⟩

end GrammarLens.DocBlock
