import GrammarLens.Text.Utf8
import GrammarLens.Uri.Authority

/-!
Contract: URIs of files and the paths they stand for.

Owns:
- percent encoding and decoding;
- taking a URI apart into scheme, authority and path;
- the file-system path of a file URI, and the file URI of a path.
-/

namespace GrammarLens.Uri

/-- The value of a digit of base sixteen. -/
def hexValue? (c : Char) : Option Nat :=
  if c.isDigit then some (c.toNat - 0x30)
  else if 0x61 ≤ c.toNat && c.toNat ≤ 0x66 then some (c.toNat - 0x57)
  else if 0x41 ≤ c.toNat && c.toNat ≤ 0x46 then some (c.toNat - 0x37)
  else none

/-- The byte that two digits of base sixteen write. -/
def hexByte? (high low : Char) : Option UInt8 :=
  match hexValue? high, hexValue? low with
  | some h, some l => some (UInt8.ofNat (h * 16 + l))
  | _, _ => none

/-- Decodes percent escapes. Stretches of ASCII are read as bytes, of which `held` (last first)
are waiting to be decoded; other characters stand for themselves. -/
def percentDecodeAfter (held : List UInt8) : Text → Text
  | [] => Utf8.decodeLenient held.reverse
  | '%' :: high :: low :: rest =>
    match hexByte? high low with
    | some byte => percentDecodeAfter (byte :: held) rest
    | none => percentDecodeAfter (0x25 :: held) (high :: low :: rest)
  | c :: rest =>
    if c.toNat < 0x80 then percentDecodeAfter (UInt8.ofNat c.toNat :: held) rest
    else Utf8.decodeLenient held.reverse ++ c :: percentDecodeAfter [] rest

/-- Decodes percent escapes as UTF-8. An escape without two digits stands for itself, and
malformed bytes become the replacement character. -/
def percentDecode (text : Text) : Text := percentDecodeAfter [] text

/-- Characters that a path keeps unescaped. -/
def isUnreserved (c : Char) : Bool :=
  c.isAlphanum || c == '_' || c == '.' || c == '-' || c == '~' || c == '/'

/-- A digit of base sixteen, in upper case. -/
def upperHexDigit (n : Nat) : Char := (Nat.digitChar (n % 16)).toUpper

/-- The percent escape of a byte. -/
def escapeByte (byte : UInt8) : Text :=
  ['%', upperHexDigit (byte.toNat / 16), upperHexDigit byte.toNat]

/-- Escapes every character that a path cannot keep, byte by byte of its UTF-8 form. -/
def percentEncode (text : Text) : Text :=
  text.flatMap fun c =>
    if isUnreserved c then [c] else (String.utf8EncodeChar c).flatMap escapeByte

/-- The decoded parts of a URI that this library looks at. -/
structure Parts where
  scheme : Text
  authority : Text
  path : Text
deriving DecidableEq, Repr

/-- Controls and the space, which are dropped at the start of a URI. -/
def isLeadingNoise (c : Char) : Bool := c.toNat ≤ 0x20

/-- Layout characters that are dropped anywhere in a URI. -/
def isLayoutNoise (c : Char) : Bool := c == '\t' || c == '\r' || c == '\n'

def isSchemeChar (c : Char) : Bool := c.isAlphanum || c == '+' || c == '-' || c == '.'

/-- Splits off the scheme, in small letters; a text without one has the empty scheme. -/
def splitScheme (uri : Text) : Text × Text :=
  let scheme := uri.takeWhile (· != ':')
  match uri.dropWhile (· != ':') with
  | ':' :: rest =>
    if scheme.head?.any Char.isAlpha && scheme.all isSchemeChar then (scheme.map Char.toLower, rest)
    else ([], uri)
  | _ => ([], uri)

/-- Characters that end an authority. -/
def endsAuthority (c : Char) : Bool := c == '/' || c == '?' || c == '#'

/-- Splits off the authority after two slashes. -/
def splitAuthority : Text → Text × Text
  | '/' :: '/' :: rest =>
    (rest.takeWhile (!endsAuthority ·), rest.dropWhile (!endsAuthority ·))
  | rest => ([], rest)

/-- The schemes whose last path segment may carry parameters after a semicolon. -/
def parameterSchemes : List Text :=
  ["".toList, "ftp".toList, "hdl".toList, "prospero".toList, "http".toList, "imap".toList,
    "https".toList, "shttp".toList, "rtsp".toList, "rtspu".toList, "sip".toList, "sips".toList,
    "mms".toList, "sftp".toList, "tel".toList]

/-- A path without the parameters of its last segment. -/
def dropParameters (path : Text) : Text :=
  let segment := Text.trailing (· != '/') path
  path.take (path.length - segment.length) ++ segment.takeWhile (· != ';')

/-- Takes a URI apart; query and fragment are dropped. -/
def split (uri : Text) : Except UriError Parts := do
  let (scheme, afterScheme) :=
    splitScheme ((uri.dropWhile isLeadingNoise).filter (!isLayoutNoise ·))
  let (authority, afterAuthority) := splitAuthority afterScheme
  Authority.checkBrackets authority
  let path := (afterAuthority.takeWhile (· != '#')).takeWhile (· != '?')
  Authority.checkCharacters authority
  let plain := if parameterSchemes.contains scheme then dropParameters path else path
  return ⟨percentDecode scheme, percentDecode authority, percentDecode plain⟩

/-- Whether a text starts with a slash, a letter and a colon, as paths on lettered drives do. -/
def hasDrive : Text → Bool
  | '/' :: letter :: ':' :: _ => letter.isAlpha
  | _ => false

/-- A path that names a drive, with its letter small. -/
def smallDrive (path : Text) : Text :=
  match path with
  | slash :: letter :: rest => if hasDrive path then slash :: letter.toLower :: rest else path
  | _ => path

/-- The file-system path of a taken-apart file URI; none for other schemes. An authority makes
it a network path, and a drive letter makes it relative. -/
def Parts.filePath? (parts : Parts) : Option Text :=
  if parts.scheme = "file".toList then
    if !parts.authority.isEmpty && !parts.path.isEmpty then
      some ('/' :: '/' :: parts.authority ++ parts.path)
    else if hasDrive parts.path then some ((smallDrive parts.path).drop 1)
    else some parts.path
  else none

/-- The file-system path of a URI; none when it is not a file URI. -/
def filePath? (uri : Text) : Except UriError (Option Text) := (split uri).map Parts.filePath?

/-- The path at which the text of a document is looked for: the file-system path, or the bare
path of a URI that is not a file URI. -/
def documentPath (uri : Text) : Except UriError Text :=
  (split uri).map fun parts => parts.filePath?.getD parts.path

/-- Splits a path that starts with two slashes into authority and path. -/
def splitNetworkPath (path : Text) : Except UriError (Text × Text) :=
  match path with
  | '/' :: '/' :: rest =>
    if rest.contains '/' then .ok (rest.takeWhile (· != '/'), rest.dropWhile (· != '/'))
    else .error .authorityWithoutPath
  | _ => .ok ([], path)

/-- The file URI of a path. The colon after a drive letter is kept. -/
def ofFilePath (path : Text) : Except UriError Text := do
  let (authority, below) ← splitNetworkPath path
  let rooted := smallDrive (if below.head? = some '/' then below else '/' :: below)
  let encoded :=
    if hasDrive rooted then rooted.take 3 ++ percentEncode (rooted.drop 3) else percentEncode rooted
  return "file://".toList ++ percentEncode authority ++ encoded

end GrammarLens.Uri
