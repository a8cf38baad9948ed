import GrammarLens.Proofs.NameRun
import GrammarLens.Uri

/-!
Contract: texts as bytes and as percent escapes, read again.

Owns:
- the bytes of a character are decoded as that character, whatever follows them, so that lenient
  decoding undoes encoding;
- percent decoding undoes percent encoding, also after characters that were not encoded;
- what an encoded text is made of.

Does not own: bytes that are not UTF-8.
-/

namespace GrammarLens

/-! ## Bytes -/

namespace Utf8

/-- A begun character that accepts a given byte next. -/
structure Pending.Accepts (pending : Pending) (missing code next : Nat) : Prop where
  missing : pending.missing = missing
  code : pending.code = code
  lower : pending.lower ≤ next
  upper : next ≤ pending.upper

section Steps

variable {position : Nat} {byte : UInt8} {pending : Pending} (rest : List UInt8)

private theorem units_of_ascii (ascii : byte.toNat < 0x80) :
    units position none (byte :: rest) =
      .ok (Char.ofNat byte.toNat) :: units (position + 1) none rest := by
  have whole : beginUnit position byte = .inl (.ok (Char.ofNat byte.toNat)) := by
    rw [beginUnit, if_pos ascii]
  rw [units, whole]

theorem units_of_begun (begun : beginUnit position byte = .inr pending) :
    units position none (byte :: rest) = units (position + 1) (some pending) rest := by
  rw [units, begun]

/-- The last byte of a character completes it. -/
theorem units_of_last {code : Nat} (accepts : pending.Accepts 1 code byte.toNat) :
    units position (some pending) (byte :: rest) =
      .ok (Char.ofNat (code * 64 + (byte.toNat - 0x80))) :: units (position + 1) none rest := by
  have whole : pending.push byte = .inl (Char.ofNat (code * 64 + (byte.toNat - 0x80))) := by
    rw [Pending.push, accepts.missing, accepts.code]
    rfl
  rw [units, if_pos (by simp [accepts.lower, accepts.upper]), whole]

/-- A byte before the last leaves a character that accepts every continuation byte. -/
theorem units_of_inner {missing code next : Nat}
    (accepts : pending.Accepts (missing + 2) code byte.toNat) (least : 0x80 ≤ next)
    (most : next ≤ 0xBF) :
    ∃ further : Pending, further.Accepts (missing + 1) (code * 64 + (byte.toNat - 0x80)) next ∧
      units position (some pending) (byte :: rest) =
        units (position + 1) (some further) rest := by
  have more : ¬ pending.missing ≤ 1 := by rw [accepts.missing]; omega
  refine ⟨{ pending with
    read := pending.read + 1, missing := pending.missing - 1, lower := 0x80, upper := 0xBF,
    code := pending.code * 64 + (byte.toNat - 0x80) }, ⟨?_, ?_, least, most⟩, ?_⟩
  · show pending.missing - 1 = missing + 1
    rw [accepts.missing]
    rfl
  · show pending.code * 64 + (byte.toNat - 0x80) = _
    rw [accepts.code]
  · rw [units, if_pos (by simp [accepts.lower, accepts.upper]), Pending.push, if_neg more]

private theorem units_of_two (first second : UInt8) (least : 0xC2 ≤ first.toNat)
    (most : first.toNat < 0xE0) (least₂ : 0x80 ≤ second.toNat) (most₂ : second.toNat ≤ 0xBF) :
    ∃ after, units position none (first :: second :: rest) =
      .ok (Char.ofNat ((first.toNat - 0xC0) * 64 + (second.toNat - 0x80))) ::
        units after none rest := by
  have begun : beginUnit position first =
      .inr ⟨position, first, 1, 1, 0x80, 0xBF, first.toNat - 0xC0⟩ := by
    unfold beginUnit
    rw [if_neg (by omega), if_neg (by omega), if_pos most]
  rw [units_of_begun _ begun, units_of_last rest ⟨rfl, rfl, least₂, most₂⟩]
  exact ⟨_, rfl⟩

/-- Two bytes that can start a character of three narrow the next one, to keep out what is too
small and the surrogates. -/
theorem units_of_three (first second third : UInt8) (least : 0xE0 ≤ first.toNat)
    (most : first.toNat < 0xF0) (least₂ : 0x80 ≤ second.toNat) (most₂ : second.toNat ≤ 0xBF)
    (large : first.toNat = 0xE0 → 0xA0 ≤ second.toNat)
    (scalar : first.toNat = 0xED → second.toNat ≤ 0x9F) (least₃ : 0x80 ≤ third.toNat)
    (most₃ : third.toNat ≤ 0xBF) :
    ∃ after, units position none (first :: second :: third :: rest) =
      .ok (Char.ofNat (((first.toNat - 0xE0) * 64 + (second.toNat - 0x80)) * 64 +
        (third.toNat - 0x80))) :: units after none rest := by
  have start : ∃ begun : Pending, beginUnit position first = .inr begun ∧
      begun.Accepts 2 (first.toNat - 0xE0) second.toNat := by
    unfold beginUnit
    rw [if_neg (by omega), if_neg (by omega), if_neg (by omega)]
    split
    · next lowest => exact ⟨_, rfl, rfl, by rw [lowest], large lowest, most₂⟩
    · split
      · next high => exact ⟨_, rfl, rfl, rfl, least₂, scalar high⟩
      · exact ⟨_, rfl, rfl, rfl, least₂, most₂⟩
  obtain ⟨begun, starts, accepts⟩ := start
  obtain ⟨further, accepts₃, onward⟩ := units_of_inner (third :: rest) accepts least₃ most₃
  rw [units_of_begun _ starts, onward, units_of_last rest accepts₃]
  exact ⟨_, rfl⟩

/-- Two bytes that can start a character of four narrow the next one, to keep out what is too
small and what is too large. -/
theorem units_of_four (first second third fourth : UInt8) (least : 0xF0 ≤ first.toNat)
    (most : first.toNat ≤ 0xF4) (least₂ : 0x80 ≤ second.toNat) (most₂ : second.toNat ≤ 0xBF)
    (large : first.toNat = 0xF0 → 0x90 ≤ second.toNat)
    (scalar : first.toNat = 0xF4 → second.toNat ≤ 0x8F) (least₃ : 0x80 ≤ third.toNat)
    (most₃ : third.toNat ≤ 0xBF) (least₄ : 0x80 ≤ fourth.toNat) (most₄ : fourth.toNat ≤ 0xBF) :
    ∃ after, units position none (first :: second :: third :: fourth :: rest) =
      .ok (Char.ofNat ((((first.toNat - 0xF0) * 64 + (second.toNat - 0x80)) * 64 +
        (third.toNat - 0x80)) * 64 + (fourth.toNat - 0x80))) :: units after none rest := by
  have start : ∃ begun : Pending, beginUnit position first = .inr begun ∧
      begun.Accepts 3 (first.toNat - 0xF0) second.toNat := by
    unfold beginUnit
    rw [if_neg (by omega), if_neg (by omega), if_neg (by omega), if_neg (by omega),
      if_neg (by omega), if_neg (by omega)]
    split
    · next lowest => exact ⟨_, rfl, rfl, by rw [lowest], large lowest, most₂⟩
    · split
      · exact ⟨_, rfl, rfl, rfl, least₂, most₂⟩
      · rw [if_pos (by omega)]
        exact ⟨_, rfl, rfl, rfl, least₂, scalar (by omega)⟩
  obtain ⟨begun, starts, accepts⟩ := start
  obtain ⟨further, accepts₃, onward⟩ :=
    units_of_inner (third :: fourth :: rest) accepts least₃ most₃
  obtain ⟨last, accepts₄, completed⟩ := units_of_inner (fourth :: rest) accepts₃ least₄ most₄
  rw [units_of_begun _ starts, onward, completed, units_of_last rest accepts₄]
  exact ⟨_, rfl⟩

end Steps

/-- Decoding starts with a character where its bytes come first. -/
theorem units_utf8EncodeChar (position : Nat) (c : Char) (rest : List UInt8) :
    ∃ after, units position none (String.utf8EncodeChar c ++ rest) =
      .ok c :: units after none rest := by
  have valid : c.toNat < 0xD800 ∨ 0xDFFF < c.toNat ∧ c.toNat < 0x110000 := c.valid
  have same : Char.ofNat c.toNat = c := Char.ofNat_toNat c
  simp only [String.utf8EncodeChar, show c.val.toNat = c.toNat from rfl]
  generalize c.toNat = code at valid same
  -- The code point decides how many bytes there are. It is put together again from their digits.
  have value {n : Nat} (small : n < 256) : (UInt8.ofNat n).toNat = n :=
    UInt8.toNat_ofNat_of_lt small
  have last : (UInt8.ofNat (code % 64 + 128)).toNat = code % 64 + 128 := value (by omega)
  have middle : (UInt8.ofNat (code / 64 % 64 + 128)).toNat = code / 64 % 64 + 128 :=
    value (by omega)
  have upper : (UInt8.ofNat (code / 4096 % 64 + 128)).toNat = code / 4096 % 64 + 128 :=
    value (by omega)
  split
  · next one =>
    have byte : (UInt8.ofNat code).toNat = code := value (by omega)
    rw [List.singleton_append, units_of_ascii rest (by omega), byte, same]
    exact ⟨_, rfl⟩
  · split
    · next two =>
      have lead : (UInt8.ofNat (code / 64 % 32 + 192)).toNat = code / 64 % 32 + 192 :=
        value (by omega)
      have whole : (code / 64 % 32 + 192 - 192) * 64 + (code % 64 + 128 - 128) = code := by omega
      have decoded := @units_of_two position rest
        (.ofNat (code / 64 % 32 + 192)) (.ofNat (code % 64 + 128))
        (by omega) (by omega) (by omega) (by omega)
      rw [lead, last, whole, same] at decoded
      exact decoded
    · split
      · next three =>
        have lead : (UInt8.ofNat (code / 4096 % 16 + 224)).toNat = code / 4096 % 16 + 224 :=
          value (by omega)
        have whole : ((code / 4096 % 16 + 224 - 224) * 64 + (code / 64 % 64 + 128 - 128)) * 64 +
            (code % 64 + 128 - 128) = code := by omega
        have decoded := @units_of_three position rest
          (.ofNat (code / 4096 % 16 + 224)) (.ofNat (code / 64 % 64 + 128))
          (.ofNat (code % 64 + 128)) (by omega) (by omega) (by omega) (by omega) (by omega)
          (by omega) (by omega) (by omega)
        rw [lead, middle, last, whole, same] at decoded
        exact decoded
      · next four =>
        have lead : (UInt8.ofNat (code / 262144 % 8 + 240)).toNat = code / 262144 % 8 + 240 :=
          value (by omega)
        have whole : (((code / 262144 % 8 + 240 - 240) * 64 + (code / 4096 % 64 + 128 - 128)) * 64 +
            (code / 64 % 64 + 128 - 128)) * 64 + (code % 64 + 128 - 128) = code := by omega
        have decoded := @units_of_four position rest
          (.ofNat (code / 262144 % 8 + 240)) (.ofNat (code / 4096 % 64 + 128))
          (.ofNat (code / 64 % 64 + 128)) (.ofNat (code % 64 + 128)) (by omega) (by omega)
          (by omega) (by omega) (by omega) (by omega) (by omega) (by omega) (by omega) (by omega)
        rw [lead, upper, middle, last, whole, same] at decoded
        exact decoded

/-- Lenient decoding gives back an encoded text. -/
theorem decodeLenient_encode (text : Text) : decodeLenient (encode text) = text := by
  have all (position : Nat) : (units position none (encode text)).map lenientChar = text := by
    induction text generalizing position with
    | nil => rfl
    | cons c rest inductionHypothesis =>
        obtain ⟨after, decoded⟩ := units_utf8EncodeChar position c (encode rest)
        rw [encode, List.flatMap_cons, ← encode, decoded, List.map_cons, inductionHypothesis after]
        rfl
  exact all 0

end Utf8

/-! ## Percent escapes -/

namespace Uri

theorem upperHexDigit_mod (n : Nat) : upperHexDigit (n % 16) = upperHexDigit n := by
  rw [upperHexDigit, upperHexDigit, Nat.mod_mod]

private theorem hexValue?_upperHexDigit (n : Nat) :
    hexValue? (upperHexDigit n) = some (n % 16) := by
  have all : ∀ digit < 16, hexValue? (upperHexDigit digit) = some digit := by decide
  rw [← upperHexDigit_mod]
  exact all (n % 16) (Nat.mod_lt n (by decide))

private theorem hexByte?_upperHexDigit (byte : UInt8) :
    hexByte? (upperHexDigit (byte.toNat / 16)) (upperHexDigit byte.toNat) = some byte := by
  have small := byte.toNat_lt
  have value : byte.toNat / 16 % 16 * 16 + byte.toNat % 16 = byte.toNat := by omega
  rw [hexByte?, hexValue?_upperHexDigit, hexValue?_upperHexDigit]
  simp only [value, UInt8.ofNat_toNat]

/-- Escaped bytes come to be held, last first. -/
theorem percentDecodeAfter_escapes (bytes held : List UInt8) (rest : Text) :
    percentDecodeAfter held (bytes.flatMap escapeByte ++ rest) =
      percentDecodeAfter (bytes.reverse ++ held) rest := by
  induction bytes generalizing held with
  | nil => rfl
  | cons byte bytes inductionHypothesis =>
      have one : percentDecodeAfter held (escapeByte byte ++ (bytes.flatMap escapeByte ++ rest)) =
          percentDecodeAfter (byte :: held) (bytes.flatMap escapeByte ++ rest) := by
        rw [escapeByte, List.cons_append, List.cons_append, List.singleton_append,
          percentDecodeAfter, hexByte?_upperHexDigit]
      rw [List.flatMap_cons, List.append_assoc, one, inductionHypothesis]
      simp

theorem percentDecodeAfter_of_ascii {c : Char} (ascii : c.toNat < 0x80) (plain : c ≠ '%')
    (held : List UInt8) (rest : Text) :
    percentDecodeAfter held (c :: rest) =
      percentDecodeAfter (UInt8.ofNat c.toNat :: held) rest := by
  rw [percentDecodeAfter, if_pos ascii]
  intro high low others escape
  exact absurd escape plain

theorem isUnreserved_bounds {c : Char} (unreserved : isUnreserved c = true) :
    c.toNat < 0x80 ∧ c ≠ '%' := by
  have escaped : isUnreserved '%' = false := by decide
  refine ⟨?_, ?_⟩
  · simp only [isUnreserved, Bool.or_eq_true, beq_iff_eq] at unreserved
    rcases unreserved with ((((named | rfl) | rfl) | rfl) | rfl) | rfl
    · have bounds : 33 ≤ c.toNat ∧ c.toNat < 127 :=
        toNat_of_isNameChar (by simp [isNameChar, named])
      omega
    all_goals decide
  · intro same
    rw [same, escaped] at unreserved
    exact absurd unreserved (by decide)

theorem utf8EncodeChar_of_ascii {c : Char} (ascii : c.toNat < 0x80) :
    String.utf8EncodeChar c = [UInt8.ofNat c.toNat] := by
  have short : c.val.toNat ≤ 127 := Nat.le_of_lt_succ ascii
  rw [String.utf8EncodeChar]
  exact if_pos short

theorem percentEncode_cons (c : Char) (rest : Text) :
    percentEncode (c :: rest) = percentEncode [c] ++ percentEncode rest := by
  simp [percentEncode]

private theorem percentDecodeAfter_percentEncode (text rest : Text) (held : List UInt8) :
    percentDecodeAfter held (percentEncode text ++ rest) =
      percentDecodeAfter ((Utf8.encode text).reverse ++ held) rest := by
  induction text generalizing held with
  | nil => rfl
  | cons c others inductionHypothesis =>
      have one (held : List UInt8) (rest : Text) :
          percentDecodeAfter held (percentEncode [c] ++ rest) =
            percentDecodeAfter ((String.utf8EncodeChar c).reverse ++ held) rest := by
        rw [percentEncode, List.flatMap_singleton]
        split
        · next unreserved =>
          have bounds := isUnreserved_bounds unreserved
          rw [List.singleton_append, percentDecodeAfter_of_ascii bounds.1 bounds.2,
            utf8EncodeChar_of_ascii bounds.1]
          rfl
        · exact percentDecodeAfter_escapes _ held rest
      rw [percentEncode_cons, List.append_assoc, one, inductionHypothesis]
      simp [Utf8.encode]

private theorem percentDecodeAfter_of_plain {lead : Text}
    (plain : ∀ c ∈ lead, c.toNat < 0x80 ∧ c ≠ '%') (rest : Text) (held : List UInt8) :
    percentDecodeAfter held (lead ++ rest) =
      percentDecodeAfter ((Utf8.encode lead).reverse ++ held) rest := by
  induction lead generalizing held with
  | nil => rfl
  | cons c others inductionHypothesis =>
      have bounds := plain c List.mem_cons_self
      rw [List.cons_append, percentDecodeAfter_of_ascii bounds.1 bounds.2,
        inductionHypothesis fun other later => plain other (List.mem_cons_of_mem c later)]
      simp [Utf8.encode, utf8EncodeChar_of_ascii bounds.1]

/-- Decoding undoes percent encoding, also after characters that stand for themselves. -/
theorem percentDecode_append_percentEncode {lead : Text}
    (plain : ∀ c ∈ lead, c.toNat < 0x80 ∧ c ≠ '%') (text : Text) :
    percentDecode (lead ++ percentEncode text) = lead ++ text := by
  have decoded := percentDecodeAfter_percentEncode text [] (Utf8.encode lead).reverse
  have bytes : ((Utf8.encode text).reverse ++ (Utf8.encode lead).reverse).reverse =
      Utf8.encode (lead ++ text) := by simp [Utf8.encode]
  rw [List.append_nil, percentDecodeAfter, bytes, Utf8.decodeLenient_encode] at decoded
  rw [percentDecode, percentDecodeAfter_of_plain plain, List.append_nil, decoded]

/-- What an encoded text is made of: characters that are kept, percent signs, and digits. -/
theorem mem_percentEncode {c : Char} {text : Text} (member : c ∈ percentEncode text) :
    c ∈ text ∧ isUnreserved c ∨ c = '%' ∨ c.isAlphanum := by
  have digits (n : Nat) : (upperHexDigit n).isAlphanum := by
    have all : ∀ digit < 16, (upperHexDigit digit).isAlphanum := by decide
    rw [← upperHexDigit_mod]
    exact all (n % 16) (Nat.mod_lt n (by decide))
  obtain ⟨source, inside, written⟩ := List.mem_flatMap.mp member
  split at written
  · next unreserved =>
    rw [List.mem_singleton.mp written]
    exact .inl ⟨inside, unreserved⟩
  · obtain ⟨byte, -, escape⟩ := List.mem_flatMap.mp written
    simp only [escapeByte, List.mem_cons, List.not_mem_nil, or_false] at escape
    rcases escape with rfl | rfl | rfl
    · exact .inr (.inl rfl)
    · exact .inr (.inr (digits _))
    · exact .inr (.inr (digits _))

theorem slash_not_mem_percentEncode {text : Text} (plain : '/' ∉ text) :
    '/' ∉ percentEncode text := by
  intro member
  rcases mem_percentEncode member with kept | sign | digit
  · exact plain kept.1
  · exact absurd sign (by decide)
  · exact absurd digit (by decide)

end Uri

end GrammarLens
