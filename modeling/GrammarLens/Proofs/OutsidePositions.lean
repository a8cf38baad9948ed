import GrammarLens.Proofs.PositionOrder
import GrammarLens.Proofs.TriggerScan
import GrammarLens.Proofs.WordSearch

/-!
Contract: what hover and go to definition answer at a line that a text does not have.

Owns:
- the word at the end of a text, and when the search finds it there;
- when the two queries answer with nothing, by the word that they look up;
- past the last line they answer for the word at the end of the text, and with nothing only where
  the text does not end in a word or the word is not known.

Does not own: positions on the lines of a text.

## Why a line past the last one is not turned down

A line and a column become an offset before a word is looked for, and every line past the last one
becomes the end of the text. The search does turn down offsets past the end, but it never sees one.
-/

namespace GrammarLens

/-! ## The word at the end of a text -/

/-- A text ends in a name that fits the window and is no tag. -/
structure EndsInWord (text : Text) (width : Nat) (earlier name : Text) : Prop
    extends Completion.EndsInName text earlier name where
  fits : name.length ≤ width
  untagged : earlier.getLast? ≠ some '#'

section EndsInWord

variable {text earlier name : Text} {width start finish : Nat}

theorem EndsInWord.length_eq (ends : EndsInWord text width earlier name) :
    text.length = earlier.length + name.length := by
  rw [ends.split, List.length_append]

theorem EndsInWord.slice_eq (ends : EndsInWord text width earlier name) :
    text.slice earlier.length text.length = name := by
  rw [Text.slice, List.take_length, ends.split, List.drop_left]

theorem EndsInWord.isWordAt (ends : EndsInWord text width earlier name) :
    IsWordAt text width text.length earlier.length text.length where
  toIsRun := by
    have run : IsRun (earlier ++ name ++ []) earlier.length (earlier.length + name.length) :=
      isRun_append ends.isName ends.maximal (by simp)
    rwa [List.append_nil, ← ends.split, ← ends.length_eq] at run
  start_le := by
    rw [ends.length_eq]
    exact Nat.le_add_right _ _
  le_finish := Nat.le_refl _
  near_start := by
    rw [ends.length_eq, Nat.add_sub_cancel_left]
    exact ends.fits
  near_finish := by
    rw [Nat.sub_self]
    exact Nat.zero_le _
  untagged := by
    have before := Text.before?_append earlier name
    rw [← ends.split] at before
    rw [before]
    exact ends.untagged

/-- A word around the end of a text ends there. -/
theorem IsWordAt.finish_eq (around : IsWordAt text width text.length start finish) :
    finish = text.length :=
  Nat.le_antisymm around.within around.le_finish

theorem IsWordAt.endsInWord (around : IsWordAt text width text.length start finish) :
    EndsInWord text width (text.take start) (text.slice start finish) where
  split := by
    rw [around.finish_eq, Text.slice, List.take_length, List.take_append_drop]
  whole := around.named
  maximal := by
    rw [← Text.before?_eq_getLast?_take around.start_le]
    exact around.before
  occupied := by
    apply List.ne_nil_of_length_pos
    rw [Text.length_slice around.within]
    exact Nat.sub_pos_of_lt around.occupied
  fits := by
    rw [Text.length_slice around.within, around.finish_eq]
    exact around.near_start
  untagged := by
    rw [← Text.before?_eq_getLast?_take around.start_le]
    exact around.untagged

/-- Behind a name no newline is looked past. -/
theorem EndsInWord.not_looksPast (ends : EndsInWord text width earlier name) :
    ¬ LooksPast text width text.length := by
  intro past
  obtain ⟨c, last, belongs⟩ := ends.exists_getLast?
  have newline := past.newline
  rw [Text.before?_eq_getLast?_take (Nat.le_refl _), List.take_length, last] at newline
  exact ne_of_isNameChar belongs (by decide) (Option.some.inj newline)

end EndsInWord

namespace Workspace

variable {workspace : Workspace} {text : Text}

/-- The word in which a text ends is found at its end. -/
theorem wordAt_of_endsInWord {width : Nat} {earlier name : Text}
    (whole : workspace.settings.wordWindow.width? = some width)
    (ends : EndsInWord text width earlier name) :
    workspace.wordAt text text.length = .ok (some ⟨name, earlier.length, text.length⟩) := by
  have finds := findsWord_of_not_looksPast whole (Nat.le_refl _) ends.not_looksPast
  rw [finds.found]
  exact ⟨ends.slice_eq.symm, ends.isWordAt⟩

/-- A name that is found at the end of a text is the word in which the text ends. -/
theorem exists_endsInWord_of_wordAt {width : Nat} {word : Word}
    (whole : workspace.settings.wordWindow.width? = some width)
    (found : workspace.wordAt text text.length = .ok (some word)) (name : IsName word.text) :
    ∃ earlier, EndsInWord text width earlier word.text := by
  obtain ⟨textIs, around⟩ := wordAt_sound whole found name
  rw [textIs]
  exact ⟨text.take word.start, around.endsInWord⟩

/-- What holds of every word that is no name holds of whatever the search finds at the end of a text,
if and only if it holds of the word in which the text ends. -/
theorem forall_found_iff {width : Nat} (holds : Text → Prop)
    (whole : workspace.settings.wordWindow.width? = some width)
    (others : ∀ word, ¬ IsName word → holds word) :
    (∃ found, workspace.wordAt text text.length = .ok found ∧
        ∀ word, found = some word → holds word.text) ↔
      ∀ earlier name, EndsInWord text width earlier name → holds name := by
  constructor
  · intro searched earlier name ends
    obtain ⟨found, foundIs, held⟩ := searched
    rw [wordAt_of_endsInWord whole ends] at foundIs
    exact held _ (Except.ok.inj foundIs).symm
  · intro held
    have searched := wordAt_eq whole (Nat.le_refl text.length)
    refine ⟨_, searched, ?_⟩
    intro word shown
    by_cases name : IsName word.text
    · rw [shown] at searched
      obtain ⟨earlier, ends⟩ := exists_endsInWord_of_wordAt whole searched name
      exact held earlier word.text ends
    · exact others word.text name

/-! ## Absent answers -/

section Answers

variable {line character : Int}

private theorem hover_of_wordAt {word : Word} {doc : Text}
    (located : workspace.wordAt text (text.offsetAt line character) = .ok (some word))
    (stored : workspace.documentation.lookup? word.text = some doc) :
    workspace.hover text line character =
      .ok (some ⟨escapeMarkup doc, text.rangeOf word.start word.finish⟩) := by
  simp only [hover, located, bind, Except.bind, pure, Except.pure, Option.bind_some, stored,
    Option.map_some]

private theorem hover_eq_none_iff :
    workspace.hover text line character = .ok none ↔
      ∃ found, workspace.wordAt text (text.offsetAt line character) = .ok found ∧
        ∀ word, found = some word → workspace.documentation.lookup? word.text = none := by
  unfold hover
  cases workspace.wordAt text (text.offsetAt line character) with
  | error fault => simp [bind, Except.bind]
  | ok found => simp [bind, Except.bind, pure, Except.pure]

private theorem definition_of_wordAt {word : Word} {winner : DefinitionSite} {uri : Text}
    (located : workspace.wordAt text (text.offsetAt line character) = .ok (some word))
    (stored : workspace.definitions.lookup? word.text = some winner)
    (resolved : workspace.resolveInRoots winner.uri = .ok (some uri)) :
    (workspace.definition text line character).result =
      .ok (some (winner.relocate (some uri))) := by
  simp only [definition, located, stored, resolved]

private theorem definition_eq_none_iff :
    (workspace.definition text line character).result = .ok none ↔
      ∃ found, workspace.wordAt text (text.offsetAt line character) = .ok found ∧
        ∀ word, found = some word →
          ∀ winner, workspace.definitions.lookup? word.text = some winner →
            workspace.resolveInRoots winner.uri = .ok none := by
  unfold definition
  cases workspace.wordAt text (text.offsetAt line character) with
  | error fault => simp
  | ok found =>
      cases found with
      | none => simp
      | some word =>
          cases stored : workspace.definitions.lookup? word.text with
          | none => simp [stored]
          | some winner =>
              cases resolved : workspace.resolveInRoots winner.uri with
              | error error => simp [stored, resolved]
              | ok target =>
                  cases target with
                  | none => simp [stored, resolved]
                  | some uri => simp [stored, resolved]

end Answers

/-! ## Past the last line -/

/-- Past the last line, hover and go to definition answer for the word in which the text ends. They
answer with nothing exactly if the text ends in no word, or in one without documentation or without
a definition below a root. -/
theorem run_answers_pastEnd (settings : Settings) (operations : List Operation) (text : Text)
    (line character : Int) {width : Nat} (whole : settings.wordWindow.width? = some width)
    (outside : text.count '\n' < line) :
    let workspace := (empty settings).run operations
    (workspace.hover text line character = .ok none ↔
      ∀ earlier name, EndsInWord text width earlier name →
        workspace.documentation.lookup? name = none) ∧
    ((workspace.definition text line character).result = .ok none ↔
      ∀ earlier name, EndsInWord text width earlier name →
        ∀ winner, workspace.definitions.lookup? name = some winner →
          workspace.resolveInRoots winner.uri = .ok none) ∧
    ∀ earlier name, EndsInWord text width earlier name →
      (∀ doc, workspace.documentation.lookup? name = some doc →
        workspace.hover text line character =
          .ok (some ⟨escapeMarkup doc, text.rangeOf earlier.length text.length⟩)) ∧
      ∀ winner uri, workspace.definitions.lookup? name = some winner →
        workspace.resolveInRoots winner.uri = .ok (some uri) →
          (workspace.definition text line character).result =
            .ok (some (winner.relocate (some uri))) := by
  intro workspace
  have reach : workspace.settings.wordWindow.width? = some width := by
    rw [← whole]
    exact congrArg (fun known => known.wordWindow.width?) (run_settings (empty settings) operations)
  have atEnd : text.offsetAt line character = text.length :=
    Text.offsetAt_of_count_lt outside character
  refine ⟨?hover, ?definition, ?answers⟩
  case hover =>
      rw [hover_eq_none_iff, atEnd]
      apply forall_found_iff (fun name => workspace.documentation.lookup? name = none) reach
      intro word unnamed
      rw [Option.eq_none_iff_forall_ne_some]
      intro doc stored
      exact unnamed (isName_of_run_documentation stored)
  case definition =>
      rw [definition_eq_none_iff, atEnd]
      apply forall_found_iff (fun name => ∀ winner,
        workspace.definitions.lookup? name = some winner →
          workspace.resolveInRoots winner.uri = .ok none) reach
      intro word unnamed winner stored
      exact absurd (isName_of_run_definition stored) unnamed
  case answers =>
      intro earlier name ends
      have located : workspace.wordAt text (text.offsetAt line character) =
          .ok (some ⟨name, earlier.length, text.length⟩) := by
        rw [atEnd]
        exact wordAt_of_endsInWord reach ends
      constructor
      · intro doc stored
        exact hover_of_wordAt located stored
      · intro winner uri stored resolved
        exact definition_of_wordAt located stored resolved

/-- Past the last line nothing is answered where the text ends in a period, and the last word is
answered for where it ends in one. -/
theorem run_answers_pastEnd_documentedRun :
    let workspace := (empty .standard).run documentedRun
    workspace.hover "x := A.".toList 99 99 = .ok none ∧
      (workspace.definition "x := A.".toList 99 99).result = .ok none ∧
      workspace.hover "x := A".toList 99 99 =
        .ok (some ⟨"&lt;d&gt;".toList, Text.rangeOf "x := A".toList 5 6⟩) := by
  intro workspace
  have closed := run_answers_pastEnd .standard documentedRun "x := A.".toList 99 99 rfl (by decide)
  have unended : ∀ earlier name, ¬ EndsInWord "x := A.".toList 50 earlier name := by
    intro earlier name ends
    obtain ⟨c, last, belongs⟩ := ends.exists_getLast?
    obtain rfl : '.' = c := Option.some.inj last
    exact absurd belongs (by decide)
  have named : Completion.EndsInName "x := A".toList "x := ".toList ['A'] := by
    apply @Completion.endsInName_append "x := ".toList ['A'] (by decide)
    intro c last
    obtain rfl : ' ' = c := Option.some.inj last
    decide
  have ends : EndsInWord "x := A".toList 50 "x := ".toList ['A'] :=
    { named with fits := by decide, untagged := by decide }
  have answered :=
    (run_answers_pastEnd .standard documentedRun "x := A".toList 99 99 rfl (by decide)).2.2 _ _ ends
  refine ⟨closed.1.mpr ?_, closed.2.1.mpr ?_, answered.1 "<d>".toList (by decide)⟩
  · intro earlier name ended
    exact absurd ended (unended earlier name)
  · intro earlier name ended
    exact absurd ended (unended earlier name)

/-- The last word of a text is shown and gone to from a line that the text does not have. -/
theorem hover_answers_pastEnd :
    let workspace := (empty .standard).run documentedRun
    let text : Text := "x := A".toList
    (text.count '\n' : Int) < 99 ∧
      workspace.hover text 99 99 = .ok (some ⟨"&lt;d&gt;".toList, ⟨0, 5, 0, 6⟩⟩) ∧
      (workspace.definition text 99 99).result =
        .ok (some ⟨"file:///w/a".toList, ⟨0, 0, 0, 1⟩⟩) := by
  decide

end Workspace

end GrammarLens
