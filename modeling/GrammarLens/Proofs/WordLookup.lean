import GrammarLens.Workspace.Query
import GrammarLens.Proofs.Addressing
import GrammarLens.Proofs.DefinitionHistory

/-!
Contract: hover and go to definition answer for the name under the cursor.

Owns:
- the word around an offset, as far as the window shows it: if it is a name, it is a whole run;
- every name that the indexes of a reached workspace answer for is a name of the grammar language;
- soundness of the two queries: what they return is stored for a whole run around the cursor that
  lies in the window and is no tag.

## Why no wrong name is found

A word can be cut by the window, and a newline right before the cursor is looked past, so that the
word may be no name at all. The first is refused by the search, the second finds nothing, because
the indexes hold names only.
-/

namespace GrammarLens

/-! ## Words -/

/-- Looking past a final newline makes a difference only where a name stands before it. -/
theorem typedRun_cases (before : Text) :
    typedRun before = Text.trailing isNameChar before ∨
      before.getLast? = some '\n' ∧ typedRun before ≠ [] := by
  by_cases newline : before.getLast? = some '\n'
  · by_cases vacant : typedRun before = []
    · left
      have stops : ∀ c, before.getLast? = some c → isNameChar c = false := by
        intro c last
        obtain rfl := Option.some.inj (newline.symm.trans last)
        decide
      rw [vacant, Text.trailing_eq_nil stops]
    · exact .inr ⟨newline, vacant⟩
  · left
    rw [typedRun, Text.dropFinalNewline, if_neg newline]

/-- What a window shows of a name before an offset. Only at the edge of the window may the name
run on. -/
theorem exists_split_before {text : Text} {first offset : Nat} (opens : first ≤ offset)
    (inside : offset ≤ text.length) :
    ∃ earlier, text.take offset = earlier ++ Text.trailing isNameChar (text.slice first offset) ∧
      first ≤ earlier.length ∧
      (first < earlier.length → ∀ c, earlier.getLast? = some c → isNameChar c = false) := by
  let shown := text.slice first offset
  refine ⟨text.take first ++ Text.dropTrailing isNameChar shown, ?_, ?_, ?_⟩
  · rw [List.append_assoc, Text.dropTrailing_append_trailing]
    show text.take offset = text.take first ++ (text.take offset).drop first
    have nearer : text.take first = (text.take offset).take first := by
      rw [List.take_take, Nat.min_eq_left opens]
    rw [nearer, List.take_append_drop]
  · rw [List.length_append, List.length_take]
    omega
  · intro beyond c last
    rw [List.length_append, List.length_take] at beyond
    have occupied : Text.dropTrailing isNameChar shown ≠ [] := by
      intro vacant
      rw [vacant, List.length_nil] at beyond
      omega
    rw [List.getLast?_append_of_ne_nil _ occupied] at last
    exact Text.getLast?_dropTrailing last

/-- What a window shows of a name after an offset. -/
theorem exists_split_after {text : Text} {offset last : Nat} (closes : offset ≤ last)
    (inside : last ≤ text.length) :
    ∃ rest, text.drop offset = (text.slice offset last).takeWhile isNameChar ++ rest ∧
      offset + ((text.slice offset last).takeWhile isNameChar).length ≤ last ∧
      (offset + ((text.slice offset last).takeWhile isNameChar).length < last →
        ∀ c, rest.head? = some c → isNameChar c = false) := by
  have shownLength : (text.slice offset last).length = last - offset := by
    rw [Text.slice, List.length_drop, List.length_take]
    omega
  have parts := List.takeWhile_append_dropWhile (p := isNameChar) (l := text.slice offset last)
  have lengths := congrArg List.length parts
  rw [List.length_append, shownLength] at lengths
  refine ⟨(text.slice offset last).dropWhile isNameChar ++ text.drop last, ?_, by omega, ?_⟩
  · rw [← List.append_assoc, parts, Text.slice_append_drop closes]
  · intro beyond c next
    have occupied : (text.slice offset last).dropWhile isNameChar ≠ [] := by
      intro vacant
      rw [vacant, List.length_nil] at lengths
      omega
    rw [List.head?_append_of_ne_nil _ occupied] at next
    exact Text.head?_dropWhile next

/-- What it takes for a word to be found. -/
theorem wordWithin_eq_some {text : Text} {first offset last : Nat} {word : Word}
    (found : wordWithin text first offset last = some word) :
    word.start = offset - (typedRun (text.slice first offset)).length ∧
      word.finish = offset + ((text.slice offset last).takeWhile isNameChar).length ∧
      word.text = text.slice word.start word.finish ∧
      (word.start = first → ∀ c, text.before? word.start = some c → isNameChar c = false) ∧
      (word.finish = last → ∀ c, text[word.finish]? = some c → isNameChar c = false) ∧
      text.before? word.start ≠ some '#' ∧
      typedRun (text.slice first offset) ++ (text.slice offset last).takeWhile isNameChar ≠ [] := by
  unfold wordWithin at found
  simp only at found
  split at found
  · simp at found
  · next occupied =>
    split at found
    · simp at found
    · next uncut =>
      obtain rfl := Option.some.inj found
      simp only [Bool.or_eq_true, Bool.and_eq_true, decide_eq_true_eq, not_or, not_and] at uncut
      obtain ⟨⟨uncutBefore, uncutAfter⟩, untagged⟩ := uncut
      refine ⟨rfl, rfl, rfl, ?_, ?_, untagged, by simpa using occupied⟩
      · intro edge c previous
        have other := uncutBefore edge
        rw [previous] at other
        simpa using other
      · intro edge c next
        have other := uncutAfter edge
        rw [next] at other
        simpa using other

/-- Where a newline stands right before the cursor, no name reaches across the cursor. -/
theorem newline_mem_slice {text : Text} {first offset start finish : Nat}
    (inside : offset ≤ text.length) (newline : (text.slice first offset).getLast? = some '\n')
    (fromStart : start < offset) (untilFinish : offset ≤ finish) :
    '\n' ∈ text.slice start finish := by
  have last : (text.take offset).getLast? = some '\n' := by
    rw [Text.slice, List.getLast?_drop] at newline
    split at newline
    · simp at newline
    · exact newline
  rw [List.getLast?_eq_getElem?, List.length_take, Nat.min_eq_left inside,
    List.getElem?_take_of_lt (by omega)] at last
  exact Text.mem_slice last (by omega) (by omega)

/-- If the word is a name, no newline was looked past to find it. -/
theorem typedRun_slice_eq {text : Text} {first offset last : Nat} {word : Word}
    (closes : offset ≤ last) (inside : last ≤ text.length)
    (found : wordWithin text first offset last = some word) (name : IsName word.text) :
    typedRun (text.slice first offset) =
      Text.trailing isNameChar (text.slice first offset) := by
  obtain ⟨startIs, finishIs, textIs, -⟩ := wordWithin_eq_some found
  rcases typedRun_cases (text.slice first offset) with same | ⟨newline, crossed⟩
  · exact same
  · have length := List.length_pos_of_ne_nil crossed
    have positive : offset ≠ 0 := by
      rintro rfl
      simp [Text.slice] at newline
    have crossing : '\n' ∈ word.text := by
      rw [textIs]
      exact newline_mem_slice (Nat.le_trans closes inside) newline (by omega) (by omega)
    exact absurd (name.2 _ crossing) (by decide)

/-- If no newline was looked past, the word is a whole run of name characters inside the window. -/
theorem wordWithin_run {text : Text} {first offset last : Nat} {word : Word}
    (opens : first ≤ offset) (closes : offset ≤ last) (inside : last ≤ text.length)
    (found : wordWithin text first offset last = some word)
    (taken : typedRun (text.slice first offset) =
      Text.trailing isNameChar (text.slice first offset)) :
    IsRun text word.start word.finish ∧ first ≤ word.start ∧ word.start ≤ offset ∧
      offset ≤ word.finish ∧ word.finish ≤ last := by
  obtain ⟨startIs, finishIs, -, uncutBefore, uncutAfter, -, occupied⟩ :=
    wordWithin_eq_some found
  obtain ⟨earlier, beforeSplit, notBefore, stops⟩ :=
    exists_split_before opens (Nat.le_trans closes inside)
  obtain ⟨rest, afterSplit, notBehind, ends⟩ := exists_split_after closes inside
  rw [taken] at startIs occupied
  have name : IsName (Text.trailing isNameChar (text.slice first offset) ++
      (text.slice offset last).takeWhile isNameChar) := by
    refine ⟨occupied, fun c member => ?_⟩
    rcases List.mem_append.mp member with inBefore | inAfter
    · exact Text.mem_trailing inBefore
    · exact List.mem_takeWhile_imp inAfter
  generalize Text.trailing isNameChar (text.slice first offset) = before at *
  generalize (text.slice offset last).takeWhile isNameChar = after at *
  have offsetIs : earlier.length + before.length = offset := by
    have lengths := congrArg List.length beforeSplit
    rw [List.length_append, List.length_take] at lengths
    omega
  have whole : text = earlier ++ (before ++ after) ++ rest := by
    rw [← List.take_append_drop offset text, beforeSplit, afterSplit]
    simp
  have startLength : word.start = earlier.length := by omega
  have finishLength : word.finish = earlier.length + (before ++ after).length := by
    rw [List.length_append]
    omega
  refine ⟨?_, by omega, by omega, by omega, by omega⟩
  rw [startLength] at uncutBefore
  rw [finishLength] at uncutAfter
  rw [startLength, finishLength, whole]
  apply isRun_append name
  · intro c previous
    rcases Nat.eq_or_lt_of_le notBefore with edge | beyond
    · apply uncutBefore edge.symm c
      rw [whole, List.append_assoc, Text.before?_append, previous]
    · exact stops beyond c previous
  · intro c next
    rcases Nat.eq_or_lt_of_le notBehind with edge | beyond
    · apply uncutAfter (by omega) c
      rw [whole, ← List.length_append, List.getElem?_append_right (Nat.le_refl _), Nat.sub_self,
        ← List.head?_eq_getElem?, next]
    · exact ends beyond c next

/-- A word that is a name is a whole run of name characters inside the window. -/
theorem wordWithin_sound {text : Text} {first offset last : Nat} {word : Word}
    (opens : first ≤ offset) (closes : offset ≤ last) (inside : last ≤ text.length)
    (found : wordWithin text first offset last = some word) (name : IsName word.text) :
    IsRun text word.start word.finish ∧ first ≤ word.start ∧ word.start ≤ offset ∧
      offset ≤ word.finish ∧ word.finish ≤ last :=
  wordWithin_run opens closes inside found (typedRun_slice_eq closes inside found name)

/-! ## Names in the indexes -/

theorem leadingDefinition?_eq_some {text name : Text} {length : Nat}
    (leads : leadingDefinition? text = some (name, length)) :
    IsName name ∧ ∃ gap rest, text = name ++ (gap ++ ':' :: '=' :: rest) ∧
      (∀ c ∈ gap, Text.isBlank c) ∧ length = name.length + gap.length + 2 := by
  simp only [leadingDefinition?] at leads
  split at leads
  · simp at leads
  · next occupied =>
    split at leads
    · next rest assigned =>
      obtain ⟨rfl, rfl⟩ := Prod.mk.inj (Option.some.inj leads)
      refine ⟨isName_takeWhile (by simpa using occupied),
        (text.dropWhile isNameChar).takeWhile Text.isBlank, rest, ?_,
        fun c => List.mem_takeWhile_imp, rfl⟩
      rw [← assigned, List.takeWhile_append_dropWhile, List.takeWhile_append_dropWhile]
    · simp at leads

/-- A definition stands in its text with its name and `:=`, and its documentation is looked for
right behind them. -/
theorem exists_of_mem_extractDefinitions {text uri : Text} {entry : DefinitionRecord}
    (member : entry ∈ extractDefinitions text uri) :
    IsName entry.name ∧ ∃ before gap rest,
      text = before ++ (entry.name ++ (gap ++ ':' :: '=' :: rest)) ∧ (∀ c ∈ gap, Text.isBlank c) ∧
      entry.doc = DocBlock.find? (entry.name ++ (gap ++ ':' :: '=' :: rest))
        (entry.name.length + gap.length + 2) := by
  obtain ⟨⟨position, name, doc⟩, occurs, rfl⟩ := List.mem_map.mp member
  obtain ⟨before, suffix, length, rfl, _, matched⟩ := Text.match_of_mem_occurrences occurs
  obtain ⟨⟨found, size⟩, leads, same⟩ := Option.map_eq_some_iff.mp matched
  obtain ⟨rfl, rfl⟩ := Prod.mk.inj (Prod.mk.inj same).1
  obtain ⟨named, gap, rest, rfl, blank, rfl⟩ := leadingDefinition?_eq_some leads
  exact ⟨named, before, gap, rest, rfl, blank, rfl⟩

private theorem isName_of_mem_extractDefinitions {text uri : Text} {entry : DefinitionRecord}
    (member : entry ∈ extractDefinitions text uri) : IsName entry.name :=
  (exists_of_mem_extractDefinitions member).1

private theorem isName_of_mem_recordsOf {changes : List Change} {entry : DefinitionRecord}
    (member : entry ∈ recordsOf changes) : IsName entry.name := by
  obtain ⟨change, -, extracted⟩ := List.mem_flatMap.mp member
  cases change with
  | indexed uri text => exact isName_of_mem_extractDefinitions extracted
  | removed uri => simp [Change.records] at extracted
  | tagged text uri => simp [Change.records] at extracted

theorem isName_of_mem_named {changes : List Change} {name : Text} {entry : DefinitionRecord}
    (member : entry ∈ named name (recordsOf changes)) : IsName name := by
  obtain ⟨extracted, same⟩ := List.mem_filter.mp member
  rw [← of_decide_eq_true same]
  exact isName_of_mem_recordsOf extracted

namespace Workspace

section Run

variable {settings : Settings} {operations : List Operation} {name : Text}

theorem isName_of_run_definition {site : DefinitionSite}
    (found : ((empty settings).run operations).definitions.lookup? name = some site) :
    IsName name := by
  rw [run_definitions, DefinitionIndex.lookup?_ofRecords] at found
  obtain ⟨entry, last, -⟩ := Option.map_eq_some_iff.mp found
  exact isName_of_mem_named (List.mem_of_getLast? last)

theorem isName_of_run_documentation {doc : Text}
    (found : ((empty settings).run operations).documentation.lookup? name = some doc) :
    IsName name := by
  rw [run_documentation, DocumentationIndex.lookup?_foldl_addRecord] at found
  obtain ⟨entry, member, -⟩ := List.mem_filterMap.mp (List.mem_of_getLast? found)
  exact isName_of_mem_named member

end Run

end Workspace

/-- How many characters a window reaches on each side, when that is a whole number. -/
def Window.width? : Window → Option Nat
  | characters count => some count
  | enabled => some 1
  | fractional _ => none

theorem Window.start_of_width? {window : Window} {width : Nat} (whole : window.width? = some width)
    (offset : Nat) : window.start offset = .ok (offset - width) := by
  cases window with
  | characters count =>
      obtain rfl := Option.some.inj whole
      rfl
  | enabled =>
      obtain rfl := Option.some.inj whole
      rfl
  | fractional reach => simp [width?] at whole

theorem Window.finish_of_width? {window : Window} {width : Nat}
    (whole : window.width? = some width) (offset length : Nat) :
    window.finish offset length = .ok (min length (offset + width)) := by
  have smaller : (if length < offset + width then length else offset + width) =
      min length (offset + width) := by
    split <;> omega
  rw [← smaller]
  cases window with
  | characters count =>
      obtain rfl := Option.some.inj whole
      rfl
  | enabled =>
      obtain rfl := Option.some.inj whole
      rfl
  | fractional reach => simp [width?] at whole

/-- A run of name characters around an offset that reaches at most `width` characters to each side
and is no tag. -/
structure IsWordAt (text : Text) (width offset start finish : Nat) : Prop
    extends IsRun text start finish where
  start_le : start ≤ offset
  le_finish : offset ≤ finish
  near_start : offset - start ≤ width
  near_finish : finish - offset ≤ width
  untagged : text.before? start ≠ some '#'

namespace Workspace

/-- A window of a whole number of characters has bounds, so the word in it is looked for. -/
theorem wordAt_eq {workspace : Workspace} {text : Text} {width offset : Nat}
    (whole : workspace.settings.wordWindow.width? = some width) (inside : offset ≤ text.length) :
    workspace.wordAt text offset =
      .ok (wordWithin text (offset - width) offset (min text.length (offset + width))) := by
  have within : ¬ ((decide ((offset : Int) < 0) ||
      decide ((text.length : Int) < offset)) = true) := by
    simp only [Bool.or_eq_true, decide_eq_true_eq]
    omega
  rw [wordAt, if_neg within, Int.toNat_natCast, Window.start_of_width? whole,
    Window.finish_of_width? whole]
  rfl

theorem wordAt_sound {workspace : Workspace} {text : Text} {width offset : Nat} {word : Word}
    (whole : workspace.settings.wordWindow.width? = some width)
    (found : workspace.wordAt text offset = .ok (some word)) (name : IsName word.text) :
    word.text = text.slice word.start word.finish ∧
      IsWordAt text width offset word.start word.finish := by
  have inside : offset ≤ text.length := by
    by_contra beyond
    have outside : (decide ((offset : Int) < 0) || decide ((text.length : Int) < offset)) = true := by
      simp only [Bool.or_eq_true, decide_eq_true_eq]
      omega
    rw [wordAt, if_pos outside] at found
    simp at found
  rw [wordAt_eq whole inside] at found
  have shown := Except.ok.inj found
  obtain ⟨-, -, textIs, -, -, untagged, -⟩ := wordWithin_eq_some shown
  obtain ⟨run, notBefore, start_le, le_finish, notBehind⟩ :=
    wordWithin_sound (Nat.sub_le _ _) (by omega) (by omega) shown name
  exact ⟨textIs, run, start_le, le_finish, by omega, by omega, untagged⟩

/-- What a hover is made of. -/
theorem hover_eq_some {workspace : Workspace} {text : Text} {line character : Int} {hover : Hover}
    (shown : workspace.hover text line character = .ok (some hover)) :
    ∃ word doc, workspace.wordAt text (text.offsetAt line character) = .ok (some word) ∧
      workspace.documentation.lookup? word.text = some doc ∧
      hover = ⟨escapeMarkup doc, text.rangeOf word.start word.finish⟩ := by
  unfold Workspace.hover at shown
  cases located : workspace.wordAt text (text.offsetAt line character) with
  | error fault => simp [located, bind, Except.bind] at shown
  | ok found =>
      simp only [located, bind, Except.bind, pure, Except.pure, Except.ok.injEq] at shown
      obtain ⟨word, rfl, documented⟩ := Option.bind_eq_some_iff.mp shown
      obtain ⟨doc, stored, rfl⟩ := Option.map_eq_some_iff.mp documented
      exact ⟨word, doc, rfl, stored, rfl⟩

/-- What a definition's place is made of. -/
theorem definition_eq_some {workspace : Workspace} {text : Text} {line character : Int}
    {site : DefinitionSite}
    (gone : (workspace.definition text line character).result = .ok (some site)) :
    ∃ word winner uri, workspace.wordAt text (text.offsetAt line character) = .ok (some word) ∧
      workspace.definitions.lookup? word.text = some winner ∧
      workspace.resolveInRoots winner.uri = .ok (some uri) ∧
      site = winner.relocate (some uri) := by
  unfold Workspace.definition at gone
  cases located : workspace.wordAt text (text.offsetAt line character) with
  | error fault => simp [located] at gone
  | ok found =>
      cases found with
      | none => simp [located] at gone
      | some word =>
          cases defined : workspace.definitions.lookup? word.text with
          | none => simp [located, defined] at gone
          | some winner =>
              cases resolved : workspace.resolveInRoots winner.uri with
              | error error => simp [located, defined, resolved] at gone
              | ok target =>
                  cases target with
                  | none => simp [located, defined, resolved] at gone
                  | some uri =>
                      refine ⟨word, winner, uri, rfl, defined, resolved, ?_⟩
                      simpa [located, defined, resolved] using gone.symm

private theorem relocate_range (site : DefinitionSite) (uri : Option Text) :
    (site.relocate uri).range = site.range := by
  unfold DefinitionSite.relocate
  split <;> rfl

/-- Whatever is shown or gone to at a position belongs to the name there. -/
theorem run_lookups (settings : Settings) (operations : List Operation) (text : Text)
    (line character : Int) {width : Nat} (whole : settings.wordWindow.width? = some width) :
    let workspace := (empty settings).run operations
    let offset := text.offsetAt line character
    (∀ hover, workspace.hover text line character = .ok (some hover) →
      ∃ start finish doc, IsWordAt text width offset start finish ∧
        workspace.documentation.lookup? (text.slice start finish) = some doc ∧
        hover.value = escapeMarkup doc ∧
        text.offsetAt hover.range.line hover.range.character = start ∧
        text.offsetAt hover.range.endLine hover.range.endCharacter = finish) ∧
    ∀ site, (workspace.definition text line character).result = .ok (some site) →
      ∃ start finish winner uri, IsWordAt text width offset start finish ∧
        workspace.definitions.lookup? (text.slice start finish) = some winner ∧
        workspace.resolveInRoots winner.uri = .ok (some uri) ∧
        site = winner.relocate (some uri) ∧ site.range = winner.range := by
  intro workspace offset
  have reach : workspace.settings.wordWindow.width? = some width := by
    rw [← whole]
    exact congrArg (fun known => known.wordWindow.width?) (run_settings (empty settings) operations)
  constructor
  · intro hover shown
    obtain ⟨word, doc, located, stored, rfl⟩ := hover_eq_some shown
    obtain ⟨textIs, around⟩ := wordAt_sound reach located (isName_of_run_documentation stored)
    refine ⟨word.start, word.finish, doc, around, textIs ▸ stored, rfl, ?_, ?_⟩
    · exact Text.offsetAt_positionAt around.isAddressable_start
    · exact Text.offsetAt_positionAt around.isAddressable_finish
  · intro site gone
    obtain ⟨word, winner, uri, located, stored, resolved, rfl⟩ := definition_eq_some gone
    obtain ⟨textIs, around⟩ := wordAt_sound reach located (isName_of_run_definition stored)
    exact ⟨word.start, word.finish, winner, uri, around, textIs ▸ stored, resolved, rfl,
      relocate_range winner (some uri)⟩

/-- A root, and a file below it that defines and documents a name. -/
def documentedRun : List Operation :=
  [.addRoot ⟨.root, [['w']]⟩,
    .update "file:///w/a".toList "A := b \"\"\"<d>\"\"\" .".toList]

theorem run_lookups_documentedRun :
    let workspace := (empty .standard).run documentedRun
    let text : Text := "#A A\r\nB".toList
    workspace.hover text 0 9 = .ok (some ⟨"&lt;d&gt;".toList, ⟨0, 3, 0, 4⟩⟩) ∧
      (workspace.definition text 0 3).result =
        .ok (some ⟨"file:///w/a".toList, ⟨0, 0, 0, 1⟩⟩) ∧
      (∃ start finish doc, IsWordAt text 50 4 start finish ∧
        workspace.documentation.lookup? (text.slice start finish) = some doc) ∧
      ∃ start finish winner, IsWordAt text 50 3 start finish ∧
        workspace.definitions.lookup? (text.slice start finish) = some winner := by
  intro workspace text
  have shown : workspace.hover text 0 9 = .ok (some ⟨"&lt;d&gt;".toList, ⟨0, 3, 0, 4⟩⟩) := by
    decide
  have gone : (workspace.definition text 0 3).result =
      .ok (some ⟨"file:///w/a".toList, ⟨0, 0, 0, 1⟩⟩) := by
    decide
  obtain ⟨start, finish, doc, hovered, documented, -⟩ :=
    (run_lookups .standard documentedRun text 0 9 rfl).1 _ shown
  obtain ⟨first, last, winner, -, defined, won, -⟩ :=
    (run_lookups .standard documentedRun text 0 3 rfl).2 _ gone
  exact ⟨shown, gone, ⟨start, finish, doc, hovered, documented⟩, first, last, winner, defined, won⟩

end Workspace

end GrammarLens
