import GrammarLens.Text

/-!
Contract: texts as UTF-8 bytes.

Owns:
- encoding;
- decoding into units, each a character or a malformed sequence. A malformed sequence covers
  its longest well-formed start, and decoding resumes right after it;
- strict decoding, which refuses the first malformed sequence, and lenient decoding, which
  puts the replacement character in its place;
- line ends: the two-character one and the lone carriage return become newlines.
-/

namespace GrammarLens

/-- Why a byte sequence is malformed. -/
inductive MalformedReason where
  | invalidStart
  | invalidContinuation
  | unexpectedEnd
deriving DecidableEq, Repr

def MalformedReason.message : MalformedReason → Text
  | .invalidStart => "invalid start byte".toList
  | .invalidContinuation => "invalid continuation byte".toList
  | .unexpectedEnd => "unexpected end of data".toList

/-- A malformed byte sequence: where it starts, its first byte, its length and the reason. -/
structure Malformed where
  position : Nat
  first : UInt8
  length : Nat
  reason : MalformedReason
deriving DecidableEq, Repr

namespace Utf8

/-- The bytes of a text. -/
def encode (text : Text) : List UInt8 := text.flatMap String.utf8EncodeChar

/-- A character begun and not yet complete: what was read of it, and what its next byte may
be. -/
structure Pending where
  position : Nat
  first : UInt8
  /-- Bytes read so far. -/
  read : Nat
  /-- Bytes still to come. -/
  missing : Nat
  /-- The least and the greatest byte that may come next. -/
  lower : Nat
  upper : Nat
  /-- The code point formed so far. -/
  code : Nat
deriving DecidableEq, Repr

/-- The malformed sequence that a begun character turns out to be. -/
def Pending.malformed (pending : Pending) (reason : MalformedReason) : Malformed :=
  ⟨pending.position, pending.first, pending.read, reason⟩

/-- What the first byte of a unit starts: the whole unit, or a character to be completed. -/
def beginUnit (position : Nat) (byte : UInt8) : Except Malformed Char ⊕ Pending :=
  let b := byte.toNat
  let wait (missing lower upper code : Nat) : Except Malformed Char ⊕ Pending :=
    .inr ⟨position, byte, 1, missing, lower, upper, code⟩
  if b < 0x80 then .inl (.ok (Char.ofNat b))
  else if b < 0xC2 then .inl (.error ⟨position, byte, 1, .invalidStart⟩)
  else if b < 0xE0 then wait 1 0x80 0xBF (b - 0xC0)
  else if b = 0xE0 then wait 2 0xA0 0xBF 0
  else if b = 0xED then wait 2 0x80 0x9F (b - 0xE0)
  else if b < 0xF0 then wait 2 0x80 0xBF (b - 0xE0)
  else if b = 0xF0 then wait 3 0x90 0xBF 0
  else if b < 0xF4 then wait 3 0x80 0xBF (b - 0xF0)
  else if b = 0xF4 then wait 3 0x80 0x8F (b - 0xF0)
  else .inl (.error ⟨position, byte, 1, .invalidStart⟩)

/-- A begun character after one more byte that it accepts. -/
def Pending.push (pending : Pending) (byte : UInt8) : Char ⊕ Pending :=
  let code := pending.code * 64 + (byte.toNat - 0x80)
  if pending.missing ≤ 1 then .inl (Char.ofNat code)
  else
    .inr
      { pending with
        read := pending.read + 1, missing := pending.missing - 1, lower := 0x80, upper := 0xBF, code }

/-- The units of bytes from a position on, after a begun character if there is one. -/
def units (position : Nat) : Option Pending → List UInt8 → List (Except Malformed Char)
  | none, [] => []
  | some pending, [] => [.error (pending.malformed .unexpectedEnd)]
  | none, byte :: rest =>
    match beginUnit position byte with
    | .inl unit => unit :: units (position + 1) none rest
    | .inr pending => units (position + 1) (some pending) rest
  | some pending, byte :: rest =>
    if pending.lower ≤ byte.toNat && byte.toNat ≤ pending.upper then
      match pending.push byte with
      | .inl c => .ok c :: units (position + 1) none rest
      | .inr next => units (position + 1) (some next) rest
    else
      .error (pending.malformed .invalidContinuation) ::
        match beginUnit position byte with
        | .inl unit => unit :: units (position + 1) none rest
        | .inr next => units (position + 1) (some next) rest

/-- Collects characters up to the first malformed sequence, which is refused. -/
def collect : List (Except Malformed Char) → Except Malformed Text
  | [] => .ok []
  | .error malformed :: _ => .error malformed
  | .ok c :: rest => (collect rest).map (c :: ·)

/-- Strict decoding. -/
def decode (bytes : List UInt8) : Except Malformed Text := collect (units 0 none bytes)

/-- A unit as a character, malformed sequences as the replacement character. -/
def lenientChar : Except Malformed Char → Char
  | .ok c => c
  | .error _ => Char.ofNat 0xFFFD

/-- Lenient decoding. -/
def decodeLenient (bytes : List UInt8) : Text := (units 0 none bytes).map lenientChar

end Utf8

/-- A text with every line end written as a newline. -/
def Text.plainLineEnds : Text → Text
  | '\r' :: '\n' :: rest => '\n' :: Text.plainLineEnds rest
  | '\r' :: rest => '\n' :: Text.plainLineEnds rest
  | c :: rest => c :: Text.plainLineEnds rest
  | [] => []

end GrammarLens
