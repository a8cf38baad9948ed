import GrammarLens.Proofs.WordLookup

/-!
Contract: which word is found under an offset.

Owns:
- a run around an offset that lies in the window and is no tag is the word there, and where there is
  no such run there is no word, with one exception;
- the exception: a newline right before the offset is looked past. If a name ends before that
  newline, the search goes wrong, unless the name behind the offset is longer than the window.

## Why the exception gives no name

The length of the name before the newline is counted back from the offset and not from the newline.
So the stretch that is taken for the word begins inside that name, one character late, and has the
newline in it. Its first neighbour is a name character, so neither the test for a cut word nor the
test for a tag refuses it.
-/

namespace GrammarLens

/-! ## Runs in a window -/

section Run

variable {text : Text} {first offset last start finish : Nat}

theorem IsRun.trailing_slice (run : IsRun text start finish) (notBefore : first ≤ start)
    (start_le : start ≤ offset) (le_finish : offset ≤ finish) :
    Text.trailing isNameChar (text.slice first offset) = text.slice start offset := by
  have stops : ∀ c, (text.slice first start).getLast? = some c → isNameChar c = false := by
    intro c previous
    have inside := run.within
    exact run.before c (Text.getLast?_slice (by omega) previous)
  have named : ∀ c ∈ text.slice start offset, isNameChar c := by
    intro c member
    apply run.named c
    rw [← Text.slice_append_slice start_le le_finish]
    exact List.mem_append_left _ member
  rw [← Text.slice_append_slice notBefore start_le, Text.trailing_append stops,
    Text.trailing_of_forall named]

theorem IsRun.takeWhile_slice (run : IsRun text start finish) (start_le : start ≤ offset)
    (le_finish : offset ≤ finish) (notBehind : finish ≤ last) :
    (text.slice offset last).takeWhile isNameChar = text.slice offset finish := by
  have ends : ∀ c, (text.slice finish last).head? = some c → isNameChar c = false := by
    intro c next
    exact run.after c (Text.head?_slice next)
  have named : ∀ c ∈ text.slice offset finish, isNameChar c := by
    intro c member
    apply run.named c
    rw [← Text.slice_append_slice start_le le_finish]
    exact List.mem_append_right _ member
  rw [← Text.slice_append_slice le_finish notBehind, Text.takeWhile_append_of_stops ends,
    List.takeWhile_eq_self_iff.mpr named]

/-- A run that lies in the window and is no tag is found. -/
theorem wordWithin_of_isRun (run : IsRun text start finish) (notBefore : first ≤ start)
    (start_le : start ≤ offset) (le_finish : offset ≤ finish) (notBehind : finish ≤ last)
    (untagged : text.before? start ≠ some '#')
    (taken : typedRun (text.slice first offset) =
      Text.trailing isNameChar (text.slice first offset)) :
    wordWithin text first offset last = some ⟨text.slice start finish, start, finish⟩ := by
  have inside := run.within
  have occupied := run.occupied
  have startIs : offset - (text.slice start offset).length = start := by
    rw [Text.length_slice (by omega)]
    omega
  have finishIs : offset + (text.slice offset finish).length = finish := by
    rw [Text.length_slice inside]
    omega
  have unbounded : ¬ (text.before? start).any isNameChar := by
    cases previous : text.before? start with
    | none => simp
    | some c => simp [run.before c previous]
  have unended : ¬ text[finish]?.any isNameChar := by
    cases next : text[finish]? with
    | none => simp
    | some c => simp [run.after c next]
  have visible : ¬ ((text.slice start offset).isEmpty && (text.slice offset finish).isEmpty) := by
    simp only [Bool.and_eq_true, List.isEmpty_iff_length_eq_zero,
      Text.length_slice (Nat.le_trans le_finish inside), Text.length_slice inside]
    omega
  unfold wordWithin
  simp only [taken, run.trailing_slice notBefore start_le le_finish,
    run.takeWhile_slice start_le le_finish notBehind, startIs, finishIs]
  rw [if_neg visible, if_neg (by simp [unbounded, unended, untagged])]

end Run

/-- The name characters from an offset on. -/
def nameFrom (text : Text) (offset : Nat) : Text := (text.drop offset).takeWhile isNameChar

section NameFrom

variable {text : Text} {offset : Nat}

theorem IsRun.nameFrom_eq {start finish : Nat} (run : IsRun text start finish)
    (start_le : start ≤ offset) (le_finish : offset ≤ finish) :
    nameFrom text offset = text.slice offset finish := by
  rw [← run.takeWhile_slice start_le le_finish run.within, Text.slice, List.take_length, nameFrom]

/-- What the window shows of the name behind an offset. -/
theorem length_takeWhile_slice (text : Text) (offset width : Nat) :
    ((text.slice offset (min text.length (offset + width))).takeWhile isNameChar).length =
      min width (nameFrom text offset).length := by
  have short : (nameFrom text offset).length ≤ text.length - offset := by
    rw [← List.length_drop]
    exact (List.takeWhile_prefix isNameChar).length_le
  rw [Text.slice, List.drop_take, ← List.take_takeWhile, List.length_take]
  show min _ (nameFrom text offset).length = _
  omega

theorem drop_eq_nameFrom_append (text : Text) (offset : Nat) :
    text.drop offset = nameFrom text offset ++ (text.drop offset).dropWhile isNameChar :=
  List.takeWhile_append_dropWhile.symm

private theorem isNameChar_of_lt_nameFrom {index : Nat}
    (inside : index < (nameFrom text offset).length) :
    text[offset + index]?.any isNameChar := by
  have named : isNameChar (nameFrom text offset)[index] :=
    List.mem_takeWhile_imp (List.getElem_mem inside)
  rw [← List.getElem?_drop, drop_eq_nameFrom_append, List.getElem?_append_left inside,
    List.getElem?_eq_getElem inside]
  exact named

private theorem not_isNameChar_after_nameFrom :
    ¬ text[offset + (nameFrom text offset).length]?.any isNameChar := by
  rw [← List.getElem?_drop, drop_eq_nameFrom_append, List.getElem?_append_right (Nat.le_refl _),
    Nat.sub_self, ← List.head?_eq_getElem?]
  cases next : ((text.drop offset).dropWhile isNameChar).head? with
  | none => simp
  | some c => simp [Text.head?_dropWhile next]

end NameFrom

/-! ## Newlines before the cursor -/

/-- A newline stands right before an offset, a name ends before that newline, and the window reaches
into that name. -/
structure LooksPast (text : Text) (width offset : Nat) : Prop where
  newline : text.before? offset = some '\n'
  named : (text.before? (offset - 1)).any isNameChar
  reaches : 2 ≤ width

/-- A newline is looked past, and the name behind the offset ends inside the window. -/
structure Strays (text : Text) (width offset : Nat) : Prop extends LooksPast text width offset where
  fits : (nameFrom text offset).length ≤ width

theorem typedRun_concat_newline (before : Text) :
    typedRun (before ++ ['\n']) = Text.trailing isNameChar before := by
  simp [typedRun, Text.dropFinalNewline]

private theorem trailing_ne_nil {belongs : Char → Bool} {text : Text} {c : Char}
    (last : text.getLast? = some c) (belonging : belongs c) : Text.trailing belongs text ≠ [] := by
  intro vacant
  have parts := Text.dropTrailing_append_trailing belongs text
  rw [vacant, List.append_nil] at parts
  have stops := Text.getLast?_dropTrailing (parts.symm ▸ last)
  simp [stops] at belonging

section LooksPast

variable {text : Text} {width offset : Nat}

/-- Without a name to look back to, the search reads to the offset and no further. -/
theorem typedRun_slice_of_not_looksPast (inside : offset ≤ text.length)
    (plain : ¬ LooksPast text width offset) :
    typedRun (text.slice (offset - width) offset) =
      Text.trailing isNameChar (text.slice (offset - width) offset) := by
  rcases typedRun_cases (text.slice (offset - width) offset) with same | ⟨ends, typed⟩
  · exact same
  · exfalso
    apply plain
    have newline := Text.getLast?_slice inside ends
    cases offset with
    | zero => simp [Text.before?] at newline
    | succ previous =>
        have opens : previous + 1 - width ≤ previous := by
          by_contra narrow
          have vacant : text.slice (previous + 1 - width) (previous + 1) = [] := by
            rw [← List.length_eq_zero_iff, Text.length_slice inside]
            omega
          simp [vacant] at ends
        rw [Text.slice_succ opens newline, typedRun_concat_newline] at typed
        obtain ⟨c, last, named⟩ : ∃ c, (text.slice (previous + 1 - width) previous).getLast? =
            some c ∧ isNameChar c := by
          by_contra stops
          apply typed
          apply Text.trailing_eq_nil
          intro c last
          by_contra named
          exact stops ⟨c, last, by simpa using named⟩
        have before := Text.getLast?_slice (by omega) last
        have occupied := List.length_pos_of_mem (List.mem_of_getLast? last)
        rw [Text.length_slice (by omega)] at occupied
        refine ⟨newline, ?_, by omega⟩
        rw [Nat.add_sub_cancel, before]
        exact named

/-- What stands before an offset from which a newline is looked past. -/
theorem exists_split_past (past : LooksPast text width offset) (inside : offset ≤ text.length) :
    ∃ earlier, text.take offset =
        earlier ++ (typedRun (text.slice (offset - width) offset) ++ ['\n']) ∧
      offset - width ≤ earlier.length ∧ typedRun (text.slice (offset - width) offset) ≠ [] := by
  have newline := past.newline
  have reaches := past.reaches
  cases offset with
  | zero => simp [Text.before?] at newline
  | succ previous =>
      obtain ⟨c, before, named⟩ := (Option.any_eq_true _ _).mp past.named
      rw [Nat.add_sub_cancel] at before
      have positive : previous ≠ 0 := by
        intro atStart
        simp [atStart, Text.before?] at before
      have opens : previous + 1 - width ≤ previous := by omega
      have last : (text.slice (previous + 1 - width) previous).getLast? = some c := by
        rw [Text.getLast?_slice_of_lt (by omega) (by omega), before]
      rw [Text.slice_succ opens newline, typedRun_concat_newline]
      refine ⟨text.take (previous + 1 - width) ++
        Text.dropTrailing isNameChar (text.slice (previous + 1 - width) previous), ?_, ?_,
        trailing_ne_nil last named⟩
      · have whole : text.take (previous + 1 - width) ++
            text.slice (previous + 1 - width) previous = text.take previous :=
          Text.slice_append_slice (Nat.zero_le _) opens
        have next : text.take (previous + 1) = text.take previous ++ ['\n'] :=
          Text.slice_succ (Nat.zero_le _) newline
        have parts := Text.dropTrailing_append_trailing isNameChar
          (text.slice (previous + 1 - width) previous)
        rw [List.append_assoc, ← List.append_assoc _ _ ['\n'], parts, next, ← whole,
          List.append_assoc]
      · rw [List.length_append, List.length_take]
        omega

/-- The stretch that is found begins inside the name before the newline, behind its first
character. -/
theorem start_of_looksPast (past : LooksPast text width offset) (inside : offset ≤ text.length) :
    let start := offset - (typedRun (text.slice (offset - width) offset)).length
    offset - width < start ∧ start < offset ∧ (text.before? start).any isNameChar := by
  obtain ⟨earlier, split, notBefore, occupied⟩ := exists_split_past past inside
  have ofName : ∀ c ∈ typedRun (text.slice (offset - width) offset), isNameChar c := by
    intro c member
    exact Text.mem_trailing member
  generalize typedRun (text.slice (offset - width) offset) = typed at *
  have lengths := congrArg List.length split
  simp only [List.length_append, List.length_take, List.length_singleton] at lengths
  have positive := List.length_pos_of_ne_nil occupied
  have startIs : offset - typed.length = earlier.length + 1 := by omega
  have first : text[earlier.length]? = typed.head? := by
    rw [← List.getElem?_take_of_lt (show earlier.length < offset by omega), split,
      List.getElem?_append_right (Nat.le_refl _), Nat.sub_self, ← List.head?_eq_getElem?,
      List.head?_append_of_ne_nil _ occupied]
  intro start
  refine ⟨by omega, by omega, ?_⟩
  show (text.before? (offset - typed.length)).any isNameChar
  rw [startIs, Text.before?, first, List.head?_eq_some_head occupied]
  exact ofName _ (List.head_mem occupied)

/-- A stretch that has a newline in it is taken for the word. -/
theorem exists_wordWithin_of_strays (strays : Strays text width offset)
    (inside : offset ≤ text.length) :
    ∃ word, wordWithin text (offset - width) offset (min text.length (offset + width)) = some word ∧
      '\n' ∈ word.text := by
  obtain ⟨uncut, crosses, named⟩ := start_of_looksPast strays.toLooksPast inside
  obtain ⟨c, previous, belongs⟩ := (Option.any_eq_true _ _).mp named
  have untagged : c ≠ '#' := ne_of_isNameChar belongs isNameChar_hash
  have ends : ¬ text[offset + (nameFrom text offset).length]?.any isNameChar :=
    not_isNameChar_after_nameFrom
  have visible : ¬ ((typedRun (text.slice (offset - width) offset)).isEmpty &&
      ((text.slice offset (min text.length (offset + width))).takeWhile isNameChar).isEmpty) := by
    simp only [Bool.and_eq_true, List.isEmpty_iff_length_eq_zero]
    omega
  let start := offset - (typedRun (text.slice (offset - width) offset)).length
  let finish := offset + (nameFrom text offset).length
  refine ⟨⟨text.slice start finish, start, finish⟩, ?_, ?_⟩
  · unfold wordWithin
    simp only [length_takeWhile_slice, Nat.min_eq_right strays.fits, previous]
    rw [if_neg visible, if_neg]
    simp [ends, untagged, Nat.ne_of_gt uncut]
  · have newline := strays.newline
    cases offset with
    | zero => simp [Text.before?] at newline
    | succ before =>
        apply Text.mem_slice newline
        · omega
        · omega

end LooksPast

/-- A name behind the offset that runs on past the window is not found. -/
theorem wordWithin_of_cut {text : Text} {width offset : Nat}
    (cut : width < (nameFrom text offset).length) :
    wordWithin text (offset - width) offset (min text.length (offset + width)) = none := by
  have beyond := isNameChar_of_lt_nameFrom cut
  have short : offset + width < text.length := by
    obtain ⟨c, here, -⟩ := (Option.any_eq_true _ _).mp beyond
    exact (List.getElem?_eq_some_iff.mp here).1
  unfold wordWithin
  simp only [length_takeWhile_slice, Nat.min_eq_left (Nat.le_of_lt cut)]
  rw [Nat.min_eq_right (Nat.le_of_lt short)]
  split
  · rfl
  · rw [if_pos]
    simp [beyond]

/-! ## The word under an offset -/

/-- The search of a workspace answers with the run around an offset that lies in the window and is
no tag, and with nothing where there is no such run. -/
structure Workspace.FindsWord (workspace : Workspace) (text : Text) (width offset : Nat) : Prop where
  found : ∀ word, workspace.wordAt text offset = .ok (some word) ↔
    word.text = text.slice word.start word.finish ∧
      IsWordAt text width offset word.start word.finish
  nothing : (∀ start finish, ¬ IsWordAt text width offset start finish) →
    workspace.wordAt text offset = .ok none

namespace Workspace

variable {workspace : Workspace} {text : Text} {width offset : Nat}

theorem findsWord_of_not_looksPast (whole : workspace.settings.wordWindow.width? = some width)
    (inside : offset ≤ text.length) (plain : ¬ LooksPast text width offset) :
    workspace.FindsWord text width offset := by
  have taken := typedRun_slice_of_not_looksPast inside plain
  have found : ∀ word,
      wordWithin text (offset - width) offset (min text.length (offset + width)) = some word ↔
        word.text = text.slice word.start word.finish ∧
          IsWordAt text width offset word.start word.finish := by
    intro word
    constructor
    · intro shown
      obtain ⟨-, -, textIs, -, -, untagged, -⟩ := wordWithin_eq_some shown
      obtain ⟨run, notBefore, start_le, le_finish, notBehind⟩ :=
        wordWithin_run (Nat.sub_le _ _) (by omega) (by omega) shown taken
      exact ⟨textIs, run, start_le, le_finish, by omega, by omega, untagged⟩
    · intro located
      obtain ⟨textIs, around⟩ := located
      have start_le := around.start_le
      have le_finish := around.le_finish
      have near_start := around.near_start
      have near_finish := around.near_finish
      have within := around.within
      rw [wordWithin_of_isRun around.toIsRun (by omega) start_le le_finish (by omega)
        around.untagged taken, ← textIs]
  refine ⟨?_, ?_⟩
  · intro word
    rw [wordAt_eq whole inside, Except.ok.injEq]
    exact found word
  · intro none
    rw [wordAt_eq whole inside, Except.ok.injEq, Option.eq_none_iff_forall_ne_some]
    intro word shown
    exact none _ _ ((found word).mp shown).2

private theorem findsWord_of_cut (whole : workspace.settings.wordWindow.width? = some width)
    (inside : offset ≤ text.length) (cut : width < (nameFrom text offset).length) :
    workspace.FindsWord text width offset := by
  have located : workspace.wordAt text offset = .ok none := by
    rw [wordAt_eq whole inside, wordWithin_of_cut cut]
  have nowhere : ∀ start finish, ¬ IsWordAt text width offset start finish := by
    intro start finish around
    have near := around.near_finish
    rw [around.nameFrom_eq around.start_le around.le_finish, Text.length_slice around.within] at cut
    omega
  refine ⟨?_, fun _ => located⟩
  intro word
  rw [located]
  simp [nowhere]

/-- The word under an offset is the run around it that lies in the window and is no tag. Where the
search strays past a newline this fails, and only there. -/
theorem findsWord_iff_not_strays (workspace : Workspace) (text : Text) {width offset : Nat}
    (whole : workspace.settings.wordWindow.width? = some width) (inside : offset ≤ text.length) :
    (workspace.FindsWord text width offset ↔ ¬ Strays text width offset) ∧
    (Strays text width offset →
      ∃ word, workspace.wordAt text offset = .ok (some word) ∧ '\n' ∈ word.text) := by
  have astray : Strays text width offset →
      ∃ word, workspace.wordAt text offset = .ok (some word) ∧ '\n' ∈ word.text := by
    intro strays
    obtain ⟨word, shown, crossing⟩ := exists_wordWithin_of_strays strays inside
    exact ⟨word, by rw [wordAt_eq whole inside, shown], crossing⟩
  refine ⟨⟨?_, ?_⟩, astray⟩
  · intro finds strays
    obtain ⟨word, located, crossing⟩ := astray strays
    obtain ⟨textIs, around⟩ := (finds.found word).mp located
    rw [textIs] at crossing
    exact absurd (around.named _ crossing) (by decide)
  · intro straight
    by_cases cut : width < (nameFrom text offset).length
    · exact findsWord_of_cut whole inside cut
    · apply findsWord_of_not_looksPast whole inside
      intro past
      exact straight ⟨past, by omega⟩

/-- The word behind a line break is found from its second character on. -/
theorem findsWord_iff_not_strays_secondLine :
    let text : Text := "Foo\nbar".toList
    (empty .standard).wordAt text 5 = .ok (some ⟨"bar".toList, 4, 7⟩) ∧
      IsWordAt text 50 5 4 7 ∧ ¬ (empty .standard).FindsWord text 50 4 := by
  intro text
  have found : (empty .standard).wordAt text 5 = .ok (some ⟨"bar".toList, 4, 7⟩) := by decide
  have straight : ¬ Strays text 50 5 := by
    intro strays
    exact absurd strays.newline (by decide)
  have strays : Strays text 50 4 := ⟨⟨by decide, by decide, by decide⟩, by decide⟩
  have finds : (empty .standard).FindsWord text 50 5 :=
    (findsWord_iff_not_strays (empty .standard) text rfl (by decide)).1.mpr straight
  have fails : ¬ (empty .standard).FindsWord text 50 4 := by
    intro finds
    exact (findsWord_iff_not_strays (empty .standard) text rfl (by decide)).1.mp finds strays
  exact ⟨found, ((finds.found _).mp found).2, fails⟩

/-- At the start of a second line the word is begun in the first one, and the word that stands there
is missed. -/
theorem wordAt_strays_secondLine :
    let text : Text := "A\nB".toList
    (empty .standard).wordAt text 2 = .ok (some ⟨"\nB".toList, 1, 3⟩) ∧
      IsWordAt text 50 2 2 3 ∧ ¬ (empty .standard).FindsWord text 50 2 := by
  intro text
  have located : (empty .standard).wordAt text 2 = .ok (some ⟨"\nB".toList, 1, 3⟩) := by decide
  have run : IsRun text 2 3 := by
    apply @isRun_append ['A', '\n'] ['B'] [] (by decide)
    · intro c last
      obtain rfl : '\n' = c := Option.some.inj last
      decide
    · intro c next
      simp at next
  refine ⟨located, ⟨run, by decide, by decide, by decide, by decide, by decide⟩, ?_⟩
  intro finds
  obtain ⟨-, around⟩ := (finds.found _).mp located
  exact absurd (around.named '\n' (by decide)) (by decide)

end Workspace

end GrammarLens
