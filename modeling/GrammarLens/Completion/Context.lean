import GrammarLens.Attributes
import GrammarLens.Settings
import GrammarLens.Text.Blank

/-!
Contract: what stands before the cursor.

Owns:
- the context of a completion: the text in the window, its tokens outside comments, and the
  owner of the innermost open bracket;
- the triggers that the end of that text may be: a tag, a dotted name, an open bracket;
- the test whether a comma leaves room for another attribute.

Every test at the end of the text looks past one final newline.
-/

namespace GrammarLens.Completion

/-- The owners of the open brackets, innermost first, when `previous` stands before the tokens
and the brackets in `opened` are open there. Surplus closing brackets close nothing. -/
def openOwners (previous : Option Token) (opened : List (Option Text)) :
    List Token → List (Option Text)
  | [] => opened
  | token :: rest =>
    let remaining :=
      match token.kind with
      | .leftBracket => previous.map Token.text :: opened
      | .rightBracket => opened.tail
      | _ => opened
    openOwners (some token) remaining rest

/-- The owner of the innermost open bracket of a token list. -/
def enclosingOwner? (tokens : List Token) : Option Text := ((openOwners none [] tokens).head?).join

/-- What a completion looks at. -/
structure Context where
  offset : Nat
  before : Text
  tokens : List Token
  enclosing : Option Text
deriving DecidableEq, Repr

/-- The context of a text in the window before the cursor. -/
def Context.ofBefore (offset : Nat) (before : Text) : Context :=
  let tokens := tokenizeCode before
  { offset, before, tokens, enclosing := enclosingOwner? tokens }

/-- The context at an offset, clamped to the text. -/
def Context.build (settings : Settings) (text : Text) (offset : Nat) :
    Except SettingsFault Context := do
  let start ← settings.completionWindow.start offset
  return Context.ofBefore offset (text.slice start offset)

/-- What the end of the text before the cursor asks for. -/
inductive Trigger where
  /-- Tags that start with the given text. -/
  | tags (start : Text)
  /-- Attributes of an object after its dot. -/
  | attributes (object : Text)
  /-- Attributes of an object that start with the given text. -/
  | attributesStarting (object start : Text)
  /-- Attributes of the object that owns the bracket just opened. -/
  | bracket (object : Text)
deriving DecidableEq, Repr

/-- A text that must not be empty. -/
def nonempty? (text : Text) : Option Text := if text.isEmpty then none else some text

/-- A hash and tag characters at the end. -/
def tagTrigger? (before : Text) : Option Trigger :=
  let visible := Text.dropFinalNewline before
  if (Text.dropTrailing isTagChar visible).getLast? = some '#' then
    some (.tags (Text.trailing isTagChar visible))
  else none

/-- The object of a dotted name, when the text ends with its dot. -/
def dottedObject? (before : Text) : Option Text :=
  if before.getLast? = some '.' then nonempty? (Text.trailing isNameChar before.dropLast) else none

/-- A name and a dot at the end. -/
def dotTrigger? (before : Text) : Option Trigger :=
  (dottedObject? (Text.dropFinalNewline before)).map .attributes

/-- A name, a dot and the start of another name at the end. -/
def segmentTrigger? (before : Text) : Option Trigger := do
  let start ← nonempty? (typedRun before)
  let object ← dottedObject? (Text.dropTrailing isNameChar (Text.dropFinalNewline before))
  return .attributesStarting object start

/-- The object before an opened bracket: the name right before it or, when an ampersand
stands there, the name before the name joined by it. -/
def bracketObject? (before : Text) : Option Text :=
  let head := Text.dropTrailing Text.isBlank before
  if head.getLast? = some '&' then
    let joined := Text.dropTrailing Text.isBlank head.dropLast
    let blankEnded := Text.dropTrailing isNameChar joined
    let owner := Text.dropTrailing Text.isBlank blankEnded
    if blankEnded.length < joined.length && owner.length < blankEnded.length then
      nonempty? (Text.trailing isNameChar owner)
    else none
  else nonempty? (Text.trailing isNameChar head)

/-- An owned bracket at the end, with nothing but blanks in it. -/
def bracketTrigger? (before : Text) : Option Trigger :=
  let visible := Text.dropTrailing Text.isBlank before
  if visible.getLast? = some '[' then (bracketObject? visible.dropLast).map .bracket else none

/-- The first trigger that the text before the cursor ends with. -/
def trigger? (before : Text) : Option Trigger :=
  tagTrigger? before <|> dotTrigger? before <|> segmentTrigger? before <|> bracketTrigger? before

/-- Whether a comma stands before balanced brackets at the end of a token list, read from its
end with `nested` brackets to be opened yet. -/
def commaBehind : (nested : Nat) → List Token → Bool
  | _, [] => false
  | nested, token :: rest =>
    match token.kind with
    | .rightBracket => commaBehind (nested + 1) rest
    | .leftBracket => if nested = 0 then false else commaBehind (nested - 1) rest
    | .comma => nested = 0
    | _ => false

/-- The tokens without a name that is still being typed. -/
def Context.settledTokens (context : Context) : List Token :=
  match nonempty? (typedRun context.before), context.tokens.getLast? with
  | some typed, some last => if last.text = typed then context.tokens.dropLast else context.tokens
  | _, _ => context.tokens

/-- The object whose next attribute may follow a comma at the cursor. -/
def Context.continuing? (context : Context) : Option Text :=
  context.enclosing.filter fun _ => commaBehind 0 context.settledTokens.reverse

end GrammarLens.Completion
