import GrammarLens.Proofs.ScanReport
import GrammarLens.Workspace.Query

/-!
Contract: how the URI of a file is resolved in the registered roots.

Owns:
- a path lies below a root exactly if it continues it. It is then written anew as it is, so that
  the result does not depend on which root was found first;
- the paths that have no URI: the double root and what lies right below it;
- the two reasons why a URI cannot be resolved.

Does not own: whether the URI that is written stands for the same path again.
-/

namespace GrammarLens

/-! ## Below a root -/

namespace Path

private theorem partsAfter?_eq_some_iff {start parts rest : List Text} :
    partsAfter? start parts = some rest ↔ parts = start ++ rest := by
  induction start generalizing parts with
  | nil => simp [partsAfter?]
  | cons first start inductionHypothesis =>
      cases parts with
      | nil => simp [partsAfter?]
      | cons part parts =>
          rw [partsAfter?, List.cons_append, List.cons.injEq]
          split
          · next same => simp [inductionHypothesis, same]
          · next different => simp [Ne.symm different]

theorem partsBelow?_eq_some_iff {path base : Path} {rest : List Text} :
    path.partsBelow? base = some rest ↔ path = base.extend rest := by
  obtain ⟨anchor, parts⟩ := path
  unfold partsBelow? extend
  split
  · next same => simp [partsAfter?_eq_some_iff, show anchor = base.anchor from same]
  · next different => simp [show anchor ≠ base.anchor from different]

/-- The parts of a path that was read are occupied and hold no slash. -/
theorem proper_of_mem_ofText {text part : Text} (member : part ∈ (ofText text).parts) :
    part ≠ [] ∧ '/' ∉ part := by
  obtain ⟨piece, proper⟩ := List.mem_filter.mp member
  have occupied : part ≠ [] := by
    rintro rfl
    simp [isPart] at proper
  exact ⟨occupied, Text.not_mem_piece_of_splitAtChar piece⟩

end Path

namespace Workspace

theorem resolveBelow_of_continues {path root : Path} {roots : List Path} (member : root ∈ roots)
    (below : path.Continues root) :
    resolveBelow path roots = (Uri.ofFilePath path.toText).map some := by
  induction roots with
  | nil => exact absurd member List.not_mem_nil
  | cons first rest inductionHypothesis =>
      rw [resolveBelow]
      cases lies : path.partsBelow? first with
      | some parts =>
          -- Whichever root is found, the path is put together from it again.
          show (Uri.ofFilePath (first.extend parts).toText).map some = _
          rw [← Path.partsBelow?_eq_some_iff.mp lies]
      | none =>
          apply inductionHypothesis
          refine (List.mem_cons.mp member).resolve_left ?_
          rintro rfl
          obtain ⟨parts, same⟩ := below
          rw [Path.partsBelow?_eq_some_iff.mpr same] at lies
          simp at lies

theorem resolveBelow_of_outside {path : Path} {roots : List Path}
    (outside : ∀ root ∈ roots, ¬ path.Continues root) : resolveBelow path roots = .ok none := by
  induction roots with
  | nil => rfl
  | cons first rest inductionHypothesis =>
      obtain ⟨notFirst, notRest⟩ := List.forall_mem_cons.mp outside
      have apart : path.partsBelow? first = none := by
        rw [Option.eq_none_iff_forall_not_mem]
        intro parts lies
        exact notFirst ⟨parts, Path.partsBelow?_eq_some_iff.mp lies⟩
      rw [resolveBelow, apart]
      exact inductionHypothesis notRest

end Workspace

/-! ## Paths without a URI -/

namespace Uri

private theorem splitNetworkPath_of_relative {text : Text} (other : text.head? ≠ some '/') :
    splitNetworkPath text = .ok ([], text) := by
  unfold splitNetworkPath
  split
  · simp at other
  · rfl

/-- Two slashes and at most one part are read as an authority that no path follows. -/
theorem ofFilePath_error_iff {path : Path} (proper : ∀ part ∈ path.parts, part ≠ [] ∧ '/' ∉ part)
    {error : UriError} :
    ofFilePath path.toText = .error error ↔
      path.anchor = .doubleRoot ∧ path.parts.length ≤ 1 ∧ error = .authorityWithoutPath := by
  obtain ⟨anchor, parts⟩ := path
  have rooted : anchor ≠ .relative → Path.IsRooted ⟨anchor, parts⟩ := fun anchored =>
    ⟨anchored, fun part member => (proper part member).1, fun part member => (proper part member).2⟩
  cases anchor with
  | relative =>
      have other : (Path.toText ⟨.relative, parts⟩).head? ≠ some '/' := by
        cases parts with
        | nil => decide
        | cons part rest =>
            exact Text.head?_joinWith_ne (fun part member => (proper part member).1)
              fun part member => (proper part member).2
      simp [ofFilePath, splitNetworkPath_of_relative other, bind, Except.bind, pure, Except.pure]
  | root =>
      obtain ⟨uri, written⟩ := exists_ofFilePath (rooted (by decide)) (by simp)
      simp [written]
  | doubleRoot =>
      by_cases deep : 2 ≤ parts.length
      · obtain ⟨uri, written⟩ := exists_ofFilePath (rooted (by decide)) fun _ => deep
        have many : ¬ parts.length ≤ 1 := by omega
        simp [written, many]
      · have refused : ofFilePath (Path.toText ⟨.doubleRoot, parts⟩) =
            .error .authorityWithoutPath := by
          rcases parts with _ | ⟨name, _ | ⟨second, others⟩⟩
          · rfl
          · exact ofFilePath_doubleRoot (proper name List.mem_cons_self).2
          · simp at deep
        have few : parts.length ≤ 1 := by omega
        simp [refused, few, eq_comm]

end Uri

/-! ## URIs that cannot be resolved -/

namespace Workspace

/-- Why a URI cannot be resolved: it cannot be taken apart, or its file lies below a root and its
path has no URI. -/
def Unresolvable (workspace : Workspace) (uri : Text) (error : UriError) : Prop :=
  Uri.split uri = .error error ∨
    ∃ written, Uri.filePath? uri = .ok (some written) ∧
      (∃ root ∈ workspace.roots, (Path.ofText written).Continues root) ∧
      (Path.ofText written).anchor = .doubleRoot ∧ (Path.ofText written).parts.length ≤ 1 ∧
      error = .authorityWithoutPath

theorem resolveInRoots_error_iff (workspace : Workspace) (uri : Text) (error : UriError) :
    workspace.resolveInRoots uri = .error error ↔ workspace.Unresolvable uri error := by
  unfold Unresolvable
  cases parted : Uri.split uri with
  | error other =>
      simp [resolveInRoots, Uri.filePath?, parted, Except.map, bind, Except.bind]
  | ok parts =>
      cases located : parts.filePath? with
      | none =>
          simp [resolveInRoots, Uri.filePath?, parted, located, Except.map, bind, Except.bind, pure,
            Except.pure]
      | some written =>
          have path : Uri.filePath? uri = .ok (some written) := by
            rw [Uri.filePath?, parted, ← located]
            rfl
          have resolves : workspace.resolveInRoots uri =
              resolveBelow (Path.ofText written) workspace.roots := by
            rw [resolveInRoots, path]
            rfl
          rw [resolves]
          constructor
          · intro failed
            right
            by_cases below : ∃ root ∈ workspace.roots, (Path.ofText written).Continues root
            · obtain ⟨root, member, continues⟩ := below
              rw [resolveBelow_of_continues member continues] at failed
              refine ⟨written, path, ⟨root, member, continues⟩, ?_⟩
              rw [← Uri.ofFilePath_error_iff fun part => Path.proper_of_mem_ofText]
              cases unwritten : Uri.ofFilePath (Path.ofText written).toText with
              | error other =>
                  rw [unwritten] at failed
                  exact congrArg Except.error (Except.error.inj failed)
              | ok text => simp [unwritten, Except.map] at failed
            · have outside : ∀ root ∈ workspace.roots, ¬ (Path.ofText written).Continues root :=
                fun root member continues => below ⟨root, member, continues⟩
              rw [resolveBelow_of_outside outside] at failed
              simp at failed
          · intro reason
            cases reason with
            | inl strange => simp at strange
            | inr short =>
                obtain ⟨other, same, ⟨root, member, continues⟩, unwritten⟩ := short
                obtain rfl := Option.some.inj (Except.ok.inj (path.symm.trans same))
                rw [resolveBelow_of_continues member continues,
                  (Uri.ofFilePath_error_iff fun part => Path.proper_of_mem_ofText).mpr unwritten]
                rfl

end Workspace

end GrammarLens
