import GrammarLens.Value

/-!
Contract: the settings of a workspace, read from untyped options.

Owns:
- the settings and their defaults;
- the check of options, which looks at the two windows and at the extension only;
- what the settings answer when they are used: window bounds, whether a name has the
  extension, whether a character is structural. The check admits values that cannot be
  used for this, so each answer may be a fault instead.
-/

namespace GrammarLens

/-- The names of the settings. -/
inductive Setting where
  | wordWindow
  | completionWindow
  | fileExtension
  | structuralCharacters
deriving DecidableEq, Repr

namespace Setting

/-- The name of a setting in messages and in options. -/
def label : Setting → Text
  | wordWindow => "word_window".toList
  | completionWindow => "completion_window".toList
  | fileExtension => "file_extension".toList
  | structuralCharacters => "structural_chars".toList

/-- The second name of a setting in options. -/
def otherLabel : Setting → Text
  | wordWindow => "wordWindow".toList
  | completionWindow => "completionWindow".toList
  | fileExtension => "fileExtension".toList
  | structuralCharacters => "structuralChars".toList

/-- Whether an option key names the setting. -/
def isNamedBy (setting : Setting) (key : Text) : Bool := key = setting.label || key = setting.otherLabel

/-- The value that options give to a setting: that of the last key naming it. -/
def given? (setting : Setting) (fields : List (Text × Value)) : Option Value :=
  (fields.reverse.find? fun field => setting.isNamedBy field.1).map Prod.snd

end Setting

/-- Why options are refused. -/
inductive SettingsError where
  | notAnObject (kindName : Text)
  | notComparable (kindName : Text)
  | notPositive (setting : Setting) (shown : Text)
  | emptyExtension
deriving DecidableEq, Repr

def SettingsError.message : SettingsError → Text
  | .notAnObject kindName => "Expected an options object, got ".toList ++ kindName
  | .notComparable kindName =>
    "Invalid configuration: '<=' not supported between instances of '".toList ++ kindName ++
      "' and 'int'".toList
  | .notPositive setting shown => setting.label ++ " must be positive, got ".toList ++ shown
  | .emptyExtension => "file_extension must not be empty".toList

/-- Why accepted settings cannot answer. -/
inductive SettingsFault where
  | windowStart
  | windowFinish
  | extensionKind (kindName : Text)
  | structuralKind (kindName : Text)
deriving DecidableEq, Repr

def SettingsFault.message : SettingsFault → Text
  | .windowStart => "slice indices must be integers or None or have an __index__ method".toList
  | .windowFinish => "'float' object cannot be interpreted as an integer".toList
  | .extensionKind kindName =>
    "endswith first arg must be str or a tuple of str, not ".toList ++ kindName
  | .structuralKind kindName =>
    "argument of type '".toList ++ kindName ++ "' is not iterable".toList

/-- How far a look-up reaches from the cursor. -/
inductive Window where
  /-- A whole number of characters. -/
  | characters (count : Nat)
  /-- The truth value, which reaches one character far. -/
  | enabled
  /-- A real number, usable only where the text ends before it does. -/
  | fractional (reach : Binary64)
deriving DecidableEq, Repr

namespace Window

/-- Reads a window: a number or truth value that is not zero or less. -/
def ofValue (setting : Setting) (value : Value) : Except SettingsError Window :=
  match value with
  | .int number =>
    if number ≤ 0 then .error (.notPositive setting value.render)
    else .ok (.characters number.toNat)
  | .bool flag =>
    if flag then .ok .enabled else .error (.notPositive setting value.render)
  | .real number =>
    if number.isAtMostZero then .error (.notPositive setting value.render)
    else .ok (.fractional number)
  | .null | .text _ | .list _ | .object _ => .error (.notComparable value.kindName)

/-- The value a window was read from. -/
def toValue : Window → Value
  | characters count => .int count
  | enabled => .bool true
  | fractional reach => .real reach

/-- The offset at which the window before an offset starts. -/
def start (window : Window) (offset : Nat) : Except SettingsFault Nat :=
  match window with
  | characters count => .ok (offset - count)
  | enabled => .ok (offset - 1)
  | fractional reach => if reach.isBelow offset then .error .windowStart else .ok 0

/-- The offset at which the window after an offset ends, in a text of the given length. -/
def finish (window : Window) (offset length : Nat) : Except SettingsFault Nat :=
  match window with
  | characters count => .ok (if length < offset + count then length else offset + count)
  | enabled => .ok (if length < offset + 1 then length else offset + 1)
  | fractional reach =>
    if (reach.addNat offset).isBelow length then .error .windowFinish else .ok length

end Window

/-- The settings of a workspace. -/
structure Settings where
  /-- Characters looked at on each side of the cursor for a word. -/
  wordWindow : Window
  /-- Characters before the cursor that completion looks at. -/
  completionWindow : Window
  /-- What the names of grammar files end with. -/
  fileExtension : Value
  /-- Characters after which a document is indexed again. -/
  structuralCharacters : Value

namespace Settings

/-- The settings that hold when nothing is given. -/
def standard : Settings where
  wordWindow := .characters 50
  completionWindow := .characters 7500
  fileExtension := .text ".tdl".toList
  structuralCharacters := .text ":]<>&".toList

/-- Reads a window from the fields of an options object, or keeps the given one. -/
def readWindow (setting : Setting) (kept : Window) (fields : List (Text × Value)) :
    Except SettingsError Window :=
  match setting.given? fields with
  | none => .ok kept
  | some value => Window.ofValue setting value

/-- Reads settings from the fields of an options object. The windows are checked before the
extension; unknown keys are ignored. -/
def ofFields (fields : List (Text × Value)) : Except SettingsError Settings := do
  let wordWindow ← readWindow .wordWindow standard.wordWindow fields
  let completionWindow ← readWindow .completionWindow standard.completionWindow fields
  let fileExtension := (Setting.fileExtension.given? fields).getD standard.fileExtension
  if fileExtension.isGiven then
    .ok
      { wordWindow
        completionWindow
        fileExtension
        structuralCharacters :=
          (Setting.structuralCharacters.given? fields).getD standard.structuralCharacters }
  else .error .emptyExtension

/-- Reads settings from options. Options that count as not given leave the standard ones. -/
def ofOptions (options : Value) : Except SettingsError Settings :=
  if options.isGiven then
    match options with
    | .object fields => ofFields fields
    | other => .error (.notAnObject other.kindName)
  else .ok standard

/-- Whether a file name or URI ends with the extension. -/
def hasExtension (settings : Settings) (name : Text) : Except SettingsFault Bool :=
  match settings.fileExtension with
  | .text ending => .ok (ending.isSuffixOf name)
  | other => .error (.extensionKind other.kindName)

/-- Whether a value is the text of a single given character. -/
def isCharacter (c : Char) : Value → Bool
  | .text content => content = [c]
  | _ => false

/-- Whether a character is structural: it occurs in the text, list or keys given. -/
def isStructural (settings : Settings) (c : Char) : Except SettingsFault Bool :=
  match settings.structuralCharacters with
  | .text characters => .ok (characters.contains c)
  | .list items => .ok (items.any (isCharacter c))
  | .object fields => .ok (fields.any fun field => field.1 = [c])
  | other => .error (.structuralKind other.kindName)

end Settings

end GrammarLens
