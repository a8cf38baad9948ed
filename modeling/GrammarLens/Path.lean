import GrammarLens.Text

/-!
Contract: file-system paths as text only.

Owns:
- paths as an anchor and named parts. Repeated slashes, dot parts and a final slash do not
  count; two-dot parts do;
- the written form, joining, and the part of a path below another one.

Does not own: what a path leads to.
-/

namespace GrammarLens

/-- Where a path starts. Exactly two slashes at the start are an anchor of their own. -/
inductive Anchor where
  | relative
  | root
  | doubleRoot
deriving DecidableEq, Repr

/-- A path: its anchor, and its parts, none of which is empty or a single dot. -/
structure Path where
  anchor : Anchor
  parts : List Text
deriving DecidableEq, Repr

namespace Path

/-- Whether a piece between slashes is a part of a path. -/
def isPart (piece : Text) : Bool := piece != [] && piece != ['.']

/-- The anchor that a text starts with. -/
def anchorOf (text : Text) : Anchor :=
  match (text.takeWhile (· == '/')).length with
  | 0 => .relative
  | 2 => .doubleRoot
  | _ => .root

/-- Reads a path. -/
def ofText (text : Text) : Path :=
  ⟨anchorOf text, (Text.splitAtChar '/' text).filter isPart⟩

/-- The written form; the empty path is a dot. -/
def toText (path : Path) : Text :=
  let below := Text.joinWith ['/'] path.parts
  match path.anchor with
  | .relative => if path.parts.isEmpty then ['.'] else below
  | .root => '/' :: below
  | .doubleRoot => '/' :: '/' :: below

/-- The path of further parts below a path. -/
def extend (path : Path) (parts : List Text) : Path := { path with parts := path.parts ++ parts }

/-- The path of a directory entry. -/
def child (path : Path) (name : Text) : Path := path.extend [name]

/-- A path seen from a directory: a relative one continues that directory's path. -/
def absoluteFrom (base path : Path) : Path :=
  if path.anchor = .relative then base.extend path.parts else path

/-- The last part; empty when there is none. -/
def name (path : Path) : Text := path.parts.getLast?.getD []

/-- The rest of a list after its given start. -/
def partsAfter? : (start parts : List Text) → Option (List Text)
  | [], parts => some parts
  | _ :: _, [] => none
  | first :: start, part :: parts => if first = part then partsAfter? start parts else none

/-- The parts of a path below another path, when it lies there. Only the texts are compared. -/
def partsBelow? (path base : Path) : Option (List Text) :=
  if path.anchor = base.anchor then partsAfter? base.parts path.parts else none

end Path

end GrammarLens
