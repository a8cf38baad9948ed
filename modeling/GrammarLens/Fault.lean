import GrammarLens.FileTree
import GrammarLens.Settings
import GrammarLens.Text.Cursor
import GrammarLens.Uri

/-!
Contract: why a request ends without an answer, and what a scan cannot read.

Owns:
- faults, which end a request and leave the state reached so far;
- errors with the path they concern, and the failure to read one file of a scan;
- errors given by a list of arguments, and the lists that give none.
-/

namespace GrammarLens

/-- Why a request ended without an answer. -/
inductive Fault where
  /-- The settings cannot be used as asked. -/
  | settings (fault : SettingsFault)
  /-- A URI cannot be taken apart or written. -/
  | uri (error : UriError)
  /-- A file could not be read where that is not passed over. -/
  | unreadable (error : ReadError)
  /-- A position that an editor cannot name. -/
  | cursor (error : CursorError)
  /-- A number is too long to be written out. -/
  | numeral (error : NumeralError)
  /-- A path holds a null character. -/
  | nullCharacter
  /-- A change to a document that is not open. -/
  | documentNotOpen (key : Text)
  /-- Documents are asked for before the first initialization. -/
  | notInitialized
deriving DecidableEq, Repr

def Fault.message : Fault → Text
  | .settings fault => fault.message
  | .uri error => error.message
  | .unreadable error => error.message
  | .cursor error => error.message
  | .numeral error => error.message
  | .nullCharacter => "embedded null byte".toList
  | .documentNotOpen key => Text.quoted key
  | .notInitialized =>
    "The workspace is not available - has the server been initialized?".toList

/-- An error message, with the path it concerns if there is one. -/
structure LocatedError where
  message : Text
  path : Option Path
deriving DecidableEq, Repr

/-- The path in square brackets, then the message. -/
def LocatedError.render (error : LocatedError) : Text :=
  match error.path with
  | some path => '[' :: path.toText ++ "] ".toList ++ error.message
  | none => error.message

/-- The report of something that could not be read. -/
def LocatedError.unreadable (path : Option Path) (cause : ReadError) : LocatedError where
  message := "Could not read file: ".toList ++ cause.summary
  path := path

/-- A file or directory that a scan could not read. -/
structure ScanFailure where
  path : Path
  cause : ReadError
deriving DecidableEq, Repr

def ScanFailure.located (failure : ScanFailure) : LocatedError :=
  .unreadable (some failure.path) failure.cause

/-- Why a list of arguments gives no error. -/
inductive ArgumentError where
  /-- A count that is not a whole number. -/
  | countNotWhole
  /-- A count that is larger than any written text. -/
  | countTooLarge
deriving DecidableEq, Repr

def ArgumentError.message : ArgumentError → Text
  | .countNotWhole => "'float' object cannot be interpreted as an integer".toList
  | .countTooLarge => AddressError.indexTooLarge.message

namespace ReadError

/-- The numbers of the errors that say an operation has to wait: it would block, is under way
already, or was only begun. -/
def waitingCodes : List Int := [11, 114, 115]

/-- Whether the number of an error says that an operation has to wait. -/
def isWaiting : Value → Bool
  | .int code => waitingCodes.contains code
  | _ => false

/-- The paths of an error, from the arguments in their places. Where an operation has to wait, a
number in the place of the path counts the characters already written, and no path is left. -/
def pathsOf (code path other : Value) : Except ArgumentError (Value × Value) :=
  match isWaiting code, path with
  | true, .bool _ => .ok (.null, .null)
  | true, .int count =>
    if -(addressLimit + 1 : Int) ≤ count ∧ count ≤ addressLimit then .ok (.null, .null)
    else .error .countTooLarge
  | true, .real _ => .error .countNotWhole
  | _, path => .ok (path, other)

/-- The paths of an error, each quoted, as they end its message. -/
def placeOf (path other : Value) : Text :=
  match path, other with
  | .null, _ => []
  | path, .null => ": ".toList ++ path.render
  | path, other => ": ".toList ++ path.render ++ " -> ".toList ++ other.render

/-- The text of an error with a number, a reason and paths: the reason alone if it counts as
given. -/
def textOf (code reason path other : Value) : Text :=
  if reason.isGiven then reason.display
  else "[Errno ".toList ++ code.display ++ "] ".toList ++ reason.display ++ placeOf path other

/-- The error with a number, a reason, and what stands in the places of the paths. -/
def ofParts (code reason path other : Value) : Except ArgumentError ReadError := do
  let (path, other) ← pathsOf code path other
  return .unexplained (textOf code reason path other)

/-- The error that a list of arguments gives. Two to five are a number, a reason, a path, one
that is not looked at, and a second path; a single one is the text of the error, and longer
lists are shown whole. -/
def ofArguments : List Value → Except ArgumentError ReadError
  | [] => .ok (.unexplained [])
  | [only] => .ok (.unexplained only.display)
  | [.int code, .text reason] => .ok (.system code reason none)
  | [.int code, .text reason, .text path] => .ok (.system code reason (some path))
  | [code, reason] => ofParts code reason .null .null
  | [code, reason, path] => ofParts code reason path .null
  | [code, reason, path, _] => ofParts code reason path .null
  | [code, reason, path, _, other] => ofParts code reason path other
  | arguments =>
    .ok (.unexplained ('(' :: Text.joinWith ", ".toList (Value.renderItems arguments) ++ [')']))

end ReadError

end GrammarLens
