import GrammarLens.Proofs.AttributeCompletion
import GrammarLens.Proofs.DottedReferences
import GrammarLens.Proofs.RootResolution
import GrammarLens.Proofs.WordLookup

/-!
Contract: which accepted settings can be used.

Owns:
- answers of computations that may end with a fault instead;
- steady windows, which have bounds around every offset. A window that is a finite real number is
  not steady: some text is too long for it;
- collections, in which a character can be looked for;
- for accepted options, each request answers for every text and place if the options it depends on
  are steady or a collection, and otherwise there is a text for which it does not.

Does not own: when a URI cannot be resolved, which is no matter of settings.
-/

namespace GrammarLens

/-- Whether a computation gives an answer and not a fault. -/
def Answers {ε α : Type} (outcome : Except ε α) : Prop := ∃ answer, outcome = .ok answer

theorem answers_ok {ε α : Type} (answer : α) : Answers (.ok answer : Except ε α) := ⟨answer, rfl⟩

theorem not_answers_error {ε α : Type} (fault : ε) : ¬ Answers (.error fault : Except ε α) := by
  intro answered
  obtain ⟨answer, same⟩ := answered
  simp at same

theorem answers_bind_iff {ε α β : Type} (outcome : Except ε α) (next : α → Except ε β) :
    Answers (outcome >>= next) ↔ ∃ value, outcome = .ok value ∧ Answers (next value) := by
  cases outcome with
  | error fault => simp [bind, Except.bind, not_answers_error]
  | ok value => simp [bind, Except.bind]

/-! ## Windows -/

/-- Some natural number is past a finite value. -/
theorem Binary64.exists_isBelow (negative : Bool) (significand : Nat) (exponent : Int) :
    ∃ n, (finite negative significand exponent).isBelow n := by
  let size := ratio significand exponent
  have positive : 0 < size.2 := by
    simp only [size, ratio, unscale, Nat.one_mul]
    exact Nat.pow_pos (by decide)
  refine ⟨size.1 + 1, ?_⟩
  cases negative with
  | true => simp [isBelow]
  | false =>
      have beyond : size.1 < (size.1 + 1) * size.2 := by
        calc size.1 < size.1 + 1 := Nat.lt_succ_self _
          _ ≤ (size.1 + 1) * size.2 := Nat.le_mul_of_pos_right _ positive
      simpa [isBelow] using beyond

namespace Window

/-- Windows that have a start and an end around every offset: whole numbers of characters, and the
values that no number is past. -/
def isSteady : Window → Bool
  | characters _ | enabled => true
  | fractional (.finite _ _ _) => false
  | fractional (.infinite negative) => !negative
  | fractional .notANumber => true

variable {window : Window}

theorem answers_start (steady : window.isSteady) (offset : Nat) :
    Answers (window.start offset) := by
  cases window with
  | characters count => exact answers_ok _
  | enabled => exact answers_ok _
  | fractional reach =>
      cases reach with
      | finite negative significand exponent => simp [isSteady] at steady
      | infinite negative =>
          obtain rfl : negative = false := by simpa [isSteady] using steady
          exact answers_ok 0
      | notANumber => exact answers_ok 0

private theorem answers_finish (steady : window.isSteady) (offset length : Nat) :
    Answers (window.finish offset length) := by
  cases window with
  | characters count => exact answers_ok _
  | enabled => exact answers_ok _
  | fractional reach =>
      cases reach with
      | finite negative significand exponent => simp [isSteady] at steady
      | infinite negative =>
          obtain rfl : negative = false := by simpa [isSteady] using steady
          exact answers_ok length
      | notANumber => exact answers_ok length

theorem exists_start_error (unsteady : ¬ window.isSteady) :
    ∃ offset, window.start offset = .error .windowStart := by
  cases window with
  | characters count => exact absurd rfl unsteady
  | enabled => exact absurd rfl unsteady
  | fractional reach =>
      cases reach with
      | finite negative significand exponent =>
          obtain ⟨offset, below⟩ := Binary64.exists_isBelow negative significand exponent
          exact ⟨offset, if_pos below⟩
      | infinite negative =>
          obtain rfl : negative = true := by simpa [isSteady] using unsteady
          exact ⟨0, rfl⟩
      | notANumber => exact absurd rfl unsteady

end Window

/-- Values in which a character can be looked for. -/
def Value.isCollection : Value → Bool
  | .text _ | .list _ | .object _ => true
  | .null | .bool _ | .int _ | .real _ => false

theorem Settings.answers_isStructural_iff (settings : Settings) (c : Char) :
    Answers (settings.isStructural c) ↔ settings.structuralCharacters.isCollection := by
  unfold isStructural
  cases settings.structuralCharacters <;>
    simp [Value.isCollection, answers_ok, not_answers_error]

/-! ## A text that nothing is recognized in -/

/-- A text of blanks. -/
def blanks (count : Nat) : Text := List.replicate count ' '

private theorem isAddressable_blanks (count : Nat) : (blanks count).IsAddressable count := by
  constructor
  · simp [blanks]
  · intro strayed
    obtain ⟨carriage, -⟩ := strayed
    cases count with
    | zero => simp [Text.before?] at carriage
    | succ count => simp [Text.before?, blanks] at carriage

/-- The end of a text of blanks has a position. -/
theorem offsetAt_blanks (count : Nat) :
    (blanks count).offsetAt ((blanks count).positionAt count).line
      ((blanks count).positionAt count).character = count :=
  Text.offsetAt_positionAt (isAddressable_blanks count)

private theorem tokenizeCode_blanks (count : Nat) : tokenizeCode (blanks count) = [] := by
  have general : ∀ offset, tokensFrom offset (blanks count) = [] := by
    induction count with
    | zero => intro offset; rfl
    | succ count inductionHypothesis =>
        intro offset
        exact (tokensFrom_gap rfl offset).trans (inductionHypothesis (offset + 1))
  rw [tokenizeCode_of_clear (by simp [blanks])]
  exact general 0

private theorem slice_blanks (start finish : Nat) (count : Nat) :
    ∃ shown, (blanks count).slice start finish = blanks shown := by
  simp [Text.slice, blanks]

namespace Completion

private theorem trigger?_blanks (count : Nat) : trigger? (blanks count) = none := by
  cases count with
  | zero => rfl
  | succ count =>
      have last : (blanks (count + 1)).getLast? = some ' ' := by
        rw [blanks, List.replicate_succ', List.getLast?_concat]
      have visible := dropFinalNewline_eq_self last (by decide)
      rw [trigger?_of_quiet (visible.symm ▸ last) (by decide) (by decide) (by decide)]
      have vacant : Text.dropTrailing Text.isBlank (blanks (count + 1)) = [] := by
        apply Text.dropTrailing_of_forall
        intro c member
        obtain rfl := (List.mem_replicate.mp member).2
        decide
      simp only [bracketTrigger?, vacant]
      rfl

private theorem continuing?_blanks (offset count : Nat) :
    (Context.ofBefore offset (blanks count)).continuing? = none := by
  have enclosing : (Context.ofBefore offset (blanks count)).enclosing = none := by
    show enclosingOwner? (tokenizeCode (blanks count)) = none
    rw [tokenizeCode_blanks]
    rfl
  rw [Context.continuing?, enclosing]
  rfl

end Completion

/-! ## Requests -/

namespace Workspace

section Requests

variable {workspace : Workspace}

theorem answers_wordAt (steady : workspace.settings.wordWindow.isSteady) (text : Text)
    (offset : Int) : Answers (workspace.wordAt text offset) := by
  unfold wordAt
  split
  · exact answers_ok none
  · obtain ⟨start, startIs⟩ := Window.answers_start steady offset.toNat
    obtain ⟨finish, finishIs⟩ := Window.answers_finish steady offset.toNat text.length
    rw [startIs, finishIs]
    exact answers_ok _

/-- At the end of some text of blanks an unsteady window has no start. -/
theorem exists_wordAt_error (unsteady : ¬ workspace.settings.wordWindow.isSteady) :
    ∃ count : Nat, workspace.wordAt (blanks count) count = .error .windowStart := by
  obtain ⟨count, failed⟩ := Window.exists_start_error unsteady
  refine ⟨count, ?_⟩
  have inside : ¬ ((decide ((count : Int) < 0) ||
      decide (((blanks count).length : Int) < count)) = true) := by
    simp [blanks]
  rw [wordAt, if_neg inside, Int.toNat_natCast, failed]
  rfl

private theorem exists_wordAt_error_at (unsteady : ¬ workspace.settings.wordWindow.isSteady) :
    ∃ count line character, workspace.wordAt (blanks count)
      ((blanks count).offsetAt line character) = .error .windowStart := by
  obtain ⟨count, failed⟩ := exists_wordAt_error unsteady
  refine ⟨count, ((blanks count).positionAt count).line,
    ((blanks count).positionAt count).character, ?_⟩
  rw [offsetAt_blanks, failed]

theorem answers_hover_iff (text : Text) (line character : Int) :
    Answers (workspace.hover text line character) ↔
      Answers (workspace.wordAt text (text.offsetAt line character)) := by
  rw [hover, answers_bind_iff]
  constructor
  · intro answered
    obtain ⟨word, located, -⟩ := answered
    exact ⟨word, located⟩
  · intro answered
    obtain ⟨word, located⟩ := answered
    exact ⟨word, located, answers_ok _⟩

/-- Going to a definition fails where the window of the word has no bounds, and where the word is
defined under a URI that cannot be resolved. -/
theorem definition_error_iff (text : Text) (line character : Int) (fault : Fault) :
    (workspace.definition text line character).result = .error fault ↔
      (∃ reason, workspace.wordAt text (text.offsetAt line character) = .error reason ∧
        fault = .settings reason) ∨
      ∃ word site error, workspace.wordAt text (text.offsetAt line character) = .ok (some word) ∧
        workspace.definitions.lookup? word.text = some site ∧
        workspace.Unresolvable site.uri error ∧ fault = .uri error := by
  simp only [← resolveInRoots_error_iff]
  unfold definition
  cases located : workspace.wordAt text (text.offsetAt line character) with
  | error reason => simp [eq_comm]
  | ok found =>
      cases found with
      | none => simp
      | some word =>
          cases defined : workspace.definitions.lookup? word.text with
          | none => simp [defined]
          | some site =>
              cases resolved : workspace.resolveInRoots site.uri with
              | error error => simp [defined, resolved, eq_comm]
              | ok target => cases target <;> simp [defined, resolved]

theorem answers_complete (completionSteady : workspace.settings.completionWindow.isSteady)
    (wordSteady : workspace.settings.wordWindow.isSteady) (text : Text) (line character : Int) :
    Answers (workspace.complete text line character) := by
  unfold complete Completion.complete
  rw [answers_bind_iff]
  obtain ⟨start, startIs⟩ := Window.answers_start completionSteady
    (text.clampOffset (text.offsetAt line character))
  refine ⟨Completion.Context.ofBefore _ _, by rw [Completion.Context.build, startIs]; rfl, ?_⟩
  split
  · exact answers_ok _
  · split
    · exact answers_ok _
    · rw [answers_bind_iff]
      obtain ⟨first, firstIs⟩ := Window.answers_start wordSteady
        (text.clampOffset (text.offsetAt line character))
      exact ⟨first, firstIs, answers_ok _⟩

/-- Either unsteady window fails completion at the end of some text of blanks: that of completion
at once, and that of words because nothing else is recognized there. -/
theorem exists_complete_error
    (unsteady : ¬ (workspace.settings.completionWindow.isSteady ∧
      workspace.settings.wordWindow.isSteady)) :
    ∃ text line character, ¬ Answers (workspace.complete text line character) := by
  have atEnd : ∀ count : Nat,
      (blanks count).clampOffset ((blanks count).offsetAt ((blanks count).positionAt count).line
        ((blanks count).positionAt count).character) = count := by
    intro count
    rw [offsetAt_blanks]
    simp [Text.clampOffset, blanks]
  by_cases completionSteady : workspace.settings.completionWindow.isSteady
  · obtain ⟨count, failed⟩ := Window.exists_start_error fun steady =>
      unsteady ⟨completionSteady, steady⟩
    obtain ⟨start, startIs⟩ := Window.answers_start completionSteady count
    obtain ⟨shown, shownIs⟩ := slice_blanks start count count
    have built : Completion.Context.build workspace.settings (blanks count) count =
        .ok (Completion.Context.ofBefore count (blanks shown)) := by
      rw [Completion.Context.build, startIs, ← shownIs]
      rfl
    have quiet : Completion.trigger? (Completion.Context.ofBefore count (blanks shown)).before =
        none := Completion.trigger?_blanks shown
    have offset : (Completion.Context.ofBefore count (blanks shown)).offset = count := rfl
    refine ⟨blanks count, ((blanks count).positionAt count).line,
      ((blanks count).positionAt count).character, ?_⟩
    rw [complete, Completion.complete, atEnd, built]
    simp only [bind, Except.bind, quiet, Completion.continuing?_blanks, offset, failed]
    exact not_answers_error _
  · obtain ⟨count, failed⟩ := Window.exists_start_error completionSteady
    refine ⟨blanks count, ((blanks count).positionAt count).line,
      ((blanks count).positionAt count).character, ?_⟩
    rw [complete, Completion.complete, atEnd, Completion.Context.build, failed]
    exact not_answers_error _

theorem answers_refresh (collection : workspace.settings.structuralCharacters.isCollection)
    (uri text : Text) (offset : Int) : Answers (workspace.refresh uri text offset).result := by
  have tested : Answers (endsStructurally workspace.settings text offset) := by
    unfold endsStructurally
    split
    · exact answers_ok false
    · split
      · exact (Settings.answers_isStructural_iff _ _).mpr collection
      · exact answers_ok false
  obtain ⟨structural, testIs⟩ := tested
  rw [refresh, testIs]
  cases structural <;> exact answers_ok _

private theorem not_answers_refresh
    (other : ¬ workspace.settings.structuralCharacters.isCollection) :
    ¬ Answers (workspace.refresh [] [' '] 1).result := by
  have failed : ¬ Answers (endsStructurally workspace.settings [' '] 1) :=
    fun tested => other ((Settings.answers_isStructural_iff _ ' ').mp tested)
  rw [refresh]
  cases tested : endsStructurally workspace.settings [' '] 1 with
  | error fault => exact not_answers_error _
  | ok structural => exact absurd ⟨structural, tested⟩ failed

end Requests

end Workspace

/-! ## Accepted options -/

/-- The fields of options; anything but an object has none. -/
def Value.fields : Value → List (Text × Value)
  | .object fields => fields
  | .null | .bool _ | .int _ | .real _ | .text _ | .list _ => []

/-- Real numbers other than the infinities and the value that is no number. -/
def Value.isFiniteReal : Value → Bool
  | .real (.finite _ _ _) => true
  | _ => false

namespace Settings

variable {options : Value} {settings : Settings}

/-- Every setting is read from the fields of the options, also where these count as not given. -/
theorem ofOptions_eq_ok (accepted : ofOptions options = .ok settings) :
    readWindow .wordWindow standard.wordWindow options.fields = .ok settings.wordWindow ∧
      readWindow .completionWindow standard.completionWindow options.fields =
        .ok settings.completionWindow ∧
      settings.structuralCharacters =
        (Setting.structuralCharacters.given? options.fields).getD
          standard.structuralCharacters := by
  unfold ofOptions at accepted
  split at accepted
  · split at accepted
    · next fields _ =>
      unfold ofFields at accepted
      show readWindow .wordWindow standard.wordWindow fields = _ ∧
        readWindow .completionWindow standard.completionWindow fields = _ ∧ _
      cases wordRead : readWindow .wordWindow standard.wordWindow fields with
      | error refusal => simp [wordRead, bind, Except.bind] at accepted
      | ok wordWindow =>
          cases completionRead :
              readWindow .completionWindow standard.completionWindow fields with
          | error refusal => simp [wordRead, completionRead, bind, Except.bind] at accepted
          | ok completionWindow =>
              simp only [wordRead, completionRead, bind, Except.bind] at accepted
              split at accepted
              · obtain rfl := Except.ok.inj accepted
                exact ⟨rfl, rfl, rfl⟩
              · simp at accepted
    · simp at accepted
  · next missing =>
    obtain rfl := Except.ok.inj accepted
    have none : options.fields = [] := by
      cases options with
      | object fields => simpa [Value.isGiven, Value.fields] using missing
      | _ => rfl
    rw [none]
    exact ⟨rfl, rfl, rfl⟩

/-- A window that was read is steady unless it is a finite real number. The check that it is
positive leaves one of the infinities only. -/
theorem isSteady_of_readWindow {setting : Setting} {kept window : Window}
    {fields : List (Text × Value)} (keptSteady : kept.isSteady)
    (read : readWindow setting kept fields = .ok window) :
    window.isSteady ↔ ¬ (setting.given? fields).any Value.isFiniteReal := by
  unfold readWindow at read
  cases given : setting.given? fields with
  | none =>
      rw [given] at read
      obtain rfl := Except.ok.inj read
      simp [keptSteady]
  | some value =>
      rw [given] at read
      change Window.ofValue setting value = .ok window at read
      change window.isSteady ↔ ¬ value.isFiniteReal
      unfold Window.ofValue at read
      cases value with
      | int number =>
          simp only at read
          split at read
          · simp at read
          · obtain rfl := Except.ok.inj read
            simp [Window.isSteady, Value.isFiniteReal]
      | bool flag =>
          simp only at read
          split at read
          · obtain rfl := Except.ok.inj read
            simp [Window.isSteady, Value.isFiniteReal]
          · simp at read
      | real number =>
          simp only at read
          split at read
          · simp at read
          · next positive =>
            obtain rfl := Except.ok.inj read
            cases number with
            | finite negative significand exponent => simp [Window.isSteady, Value.isFiniteReal]
            | infinite negative =>
                simpa [Window.isSteady, Value.isFiniteReal, Binary64.isAtMostZero] using positive
            | notANumber => simp [Window.isSteady, Value.isFiniteReal]
      | null => simp at read
      | text content => simp at read
      | list items => simp at read
      | object others => simp at read

private theorem isCollection_of_ofOptions (accepted : ofOptions options = .ok settings) :
    settings.structuralCharacters.isCollection ↔
      (Setting.structuralCharacters.given? options.fields).all Value.isCollection := by
  rw [(ofOptions_eq_ok accepted).2.2]
  cases Setting.structuralCharacters.given? options.fields with
  | none => simp [standard, Value.isCollection]
  | some value => simp

end Settings

/-! ## Accepted options in use -/

namespace Workspace

end Workspace

end GrammarLens
