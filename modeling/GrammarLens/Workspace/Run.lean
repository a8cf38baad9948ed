import GrammarLens.Workspace.Scan

/-!
Contract: histories of a workspace.

Owns: the operations that change a workspace, as data, and the workspace after a run of
them.
-/

namespace GrammarLens.Workspace

/-- An operation that changes a workspace. A scan carries the file tree it finds. -/
inductive Operation where
  | update (uri text : Text)
  | remove (uri : Text)
  | indexTags (text : Text) (uri : Option Text)
  | refresh (uri text : Text) (offset : Int)
  | addRoot (root : Path)
  | scan (tree : FileTree) (root : Path)
deriving DecidableEq, Repr

/-- The workspace after an operation. -/
def step (workspace : Workspace) : Operation → Workspace
  | .update uri text => workspace.update uri text
  | .remove uri => workspace.remove uri
  | .indexTags text uri => workspace.indexTags text uri
  | .refresh uri text offset => (workspace.refresh uri text offset).state
  | .addRoot root => workspace.addRoot root
  | .scan tree root => (workspace.scan tree root).state

/-- The workspace after a run of operations. -/
def run (workspace : Workspace) (operations : List Operation) : Workspace :=
  operations.foldl step workspace

end GrammarLens.Workspace
