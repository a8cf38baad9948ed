import GrammarLens.Text.Quoted

/-!
Contract: the authority part of a URI.

Owns: the checks that an authority has to pass: square brackets around the whole host, a
network address of version six or later as the host where there are brackets, and no character
that hides a delimiter.
-/

namespace GrammarLens

/-- Why a URI cannot be taken apart, or a path cannot be written as one. -/
inductive UriError where
  | misplacedBrackets
  | invalidFutureAddress
  | notAnAddress (host : Text)
  | bracketedVersionFour
  | hiddenDelimiter (authority : Text)
  | authorityWithoutPath
deriving DecidableEq, Repr

def UriError.message : UriError → Text
  | .misplacedBrackets => "Invalid IPv6 URL".toList
  | .invalidFutureAddress => "IPvFuture address is invalid".toList
  | .notAnAddress host =>
    Text.quoted host ++ " does not appear to be an IPv4 or IPv6 address".toList
  | .bracketedVersionFour => "An IPv4 address cannot be in brackets".toList
  | .hiddenDelimiter authority =>
    "netloc '".toList ++ authority ++
      "' contains invalid characters under NFKC normalization".toList
  | .authorityWithoutPath => "substring not found".toList

namespace Authority

/-- Digits of base sixteen. -/
def isHexChar (c : Char) : Bool :=
  c.isDigit || (0x61 ≤ c.toNat && c.toNat ≤ 0x66) || (0x41 ≤ c.toNat && c.toNat ≤ 0x46)

/-- A decimal byte without leading zeros. -/
def isOctet (text : Text) : Bool :=
  !text.isEmpty && text.all Char.isDigit && text.length ≤ 3 &&
    (text = ['0'] || text.head? != some '0') &&
    text.foldl (fun value c => value * 10 + (c.toNat - 0x30)) 0 ≤ 255

/-- Four decimal bytes between dots. -/
def isVersionFour (host : Text) : Bool :=
  let octets := Text.splitAtChar '.' host
  octets.length = 4 && octets.all isOctet

/-- One to four digits of base sixteen. -/
def isHextet (text : Text) : Bool := !text.isEmpty && text.length ≤ 4 && text.all isHexChar

/-- The groups of an address, with a final version-four address standing for two groups;
none when that address is wrong. -/
def hextets? (groups : List Text) : Option (List Text) :=
  match groups.getLast? with
  | some last =>
    if last.contains '.' then
      if isVersionFour last then some (groups.dropLast ++ [['0'], ['0']]) else none
    else some groups
  | none => none

/-- Eight groups, or fewer with one gap. An empty group at an end is allowed only beside the
gap. -/
def areVersionSixGroups (groups : List Text) : Bool :=
  let inner := (groups.drop 1).dropLast
  match inner.countP List.isEmpty with
  | 0 => groups.length = 8 && groups.all isHextet
  | 1 =>
    let before := groups.takeWhile (!·.isEmpty)
    let gap := if groups.head? = some [] then 1 else before.length
    let left := if groups.head? = some [] then [] else before
    let right := groups.drop (gap + 1)
    let tail := if right.getLast? = some [] then right.dropLast else right
    (groups.head? != some [] || (groups.drop 1).head? = some []) &&
      (right.getLast? != some [] || tail.isEmpty) &&
      left.length + tail.length < 8 && left.all isHextet && tail.all isHextet
  | _ => false

/-- A network address of version six, possibly with a zone after a percent sign. -/
def isVersionSix (host : Text) : Bool :=
  let address := host.takeWhile (· != '%')
  let zone := host.dropWhile (· != '%')
  let zoneIsFine := zone.isEmpty || (1 < zone.length && !(zone.drop 1).contains '%')
  let groups := Text.splitAtChar ':' address
  zoneIsFine && 3 ≤ groups.length &&
    match hextets? groups with
    | some all => all.length ≤ 9 && areVersionSixGroups all
    | none => false

/-- An address of a version after six: a `v`, digits, a dot and anything. -/
def isFutureAddress (host : Text) : Bool :=
  let version := (host.drop 1).takeWhile isHexChar
  match (host.drop 1).dropWhile isHexChar with
  | '.' :: _ :: _ => !version.isEmpty
  | _ => false

/-- Checks the host of an authority with square brackets. -/
def checkHost (host : Text) : Except UriError Unit :=
  if host.head? = some 'v' then
    if isFutureAddress host then .ok () else .error .invalidFutureAddress
  else if isVersionFour host then .error .bracketedVersionFour
  else if isVersionSix host then .ok ()
  else .error (.notAnAddress host)

/-- The host of an authority, from the part after its user. In brackets it is all before the
closing one, with nothing before the opening one and at most a port after the closing one;
otherwise it is all before the port. -/
def hostOf (hostAndPort : Text) : Except UriError Text :=
  match hostAndPort.dropWhile (· != '[') with
  | [] => .ok (hostAndPort.takeWhile (· != ':'))
  | _ :: bracketed =>
    let port := (bracketed.dropWhile (· != ']')).drop 1
    if hostAndPort.head? = some '[' && (port.isEmpty || port.head? = some ':') then
      .ok (bracketed.takeWhile (· != ']'))
    else .error .misplacedBrackets

/-- Checks the square brackets of an authority. -/
def checkBrackets (authority : Text) : Except UriError Unit :=
  if authority.contains '[' != authority.contains ']' then .error .misplacedBrackets
  else if authority.contains '[' then do checkHost (← hostOf (Text.trailing (· != '@') authority))
  else .ok ()

/-- Code points whose compatible spelling holds a slash, question mark, hash, at sign or
colon. -/
def hiddenDelimiters : List Nat :=
  [0x2047, 0x2048, 0x2049, 0x2100, 0x2101, 0x2105, 0x2106, 0x2A74, 0xFE13, 0xFE16, 0xFE55, 0xFE56,
    0xFE5F, 0xFE6B, 0xFF03, 0xFF0F, 0xFF1A, 0xFF1F, 0xFF20]

/-- Checks that no character of an authority hides a delimiter. -/
def checkCharacters (authority : Text) : Except UriError Unit :=
  if authority.any fun c => hiddenDelimiters.contains c.toNat then
    .error (.hiddenDelimiter authority)
  else .ok ()

end Authority

end GrammarLens
