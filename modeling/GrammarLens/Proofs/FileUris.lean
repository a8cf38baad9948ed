import GrammarLens.Proofs.PercentEncoding
import GrammarLens.Proofs.RootResolution

/-!
Contract: the file URI that is written for a path, read again.

Owns:
- a written file URI is taken apart into what it was put together from;
- a path from the root in normal form is read again from its text;
- the paths that their URI does not give back: those that start with a drive letter.

Does not own: paths that have no URI.
-/

namespace GrammarLens

namespace Uri

/-! ## Taking a file URI apart -/

/-- Characters of which written file URIs are made: those that are kept, percent signs, and the
colon after a drive letter. -/
def IsWritten (c : Char) : Prop := isUnreserved c ∨ c = '%' ∨ c = ':'

private theorem isWritten_of_mem_percentEncode {c : Char} {text : Text}
    (member : c ∈ percentEncode text) : IsWritten c := by
  rcases mem_percentEncode member with kept | sign | digit
  · exact .inl kept.2
  · exact .inr (.inl sign)
  · exact .inl (by simp [isUnreserved, digit])

theorem IsWritten.ascii {c : Char} (written : IsWritten c) : c.toNat < 0x80 := by
  rcases written with unreserved | rfl | rfl
  · exact (isUnreserved_bounds unreserved).1
  · decide
  · decide

theorem IsWritten.ne {c d : Char} (written : IsWritten c)
    (other : isUnreserved d = false ∧ d ≠ '%' ∧ d ≠ ':') : c ≠ d := by
  intro same
  rw [same] at written
  rcases written with unreserved | sign | colon
  · rw [other.1] at unreserved
    exact absurd unreserved (by decide)
  · exact other.2.1 sign
  · exact other.2.2 colon

private theorem filter_of_written {text : Text} (written : ∀ c ∈ text, IsWritten c) :
    text.filter (!isLayoutNoise ·) = text := by
  rw [List.filter_eq_self]
  intro c member
  have tab : c ≠ '\t' := (written c member).ne (by decide)
  have carriage : c ≠ '\r' := (written c member).ne (by decide)
  have newline : c ≠ '\n' := (written c member).ne (by decide)
  simp [isLayoutNoise, tab, carriage, newline]

private theorem takeWhile_of_written {text : Text} (written : ∀ c ∈ text, IsWritten c) (mark : Char)
    (other : isUnreserved mark = false ∧ mark ≠ '%' ∧ mark ≠ ':') :
    text.takeWhile (· != mark) = text := by
  have apart : ∀ c ∈ text, c ≠ mark := fun c member => (written c member).ne other
  simpa using apart

private theorem splitAuthority_of_written {authority path : Text}
    (plain : ∀ c ∈ authority, IsWritten c ∧ c ≠ '/') (rooted : path.head? = some '/') :
    splitAuthority ('/' :: '/' :: (authority ++ path)) = (authority, path) := by
  have inside : ∀ c ∈ authority, !endsAuthority c := by
    intro c member
    have query : c ≠ '?' := (plain c member).1.ne (by decide)
    have fragment : c ≠ '#' := (plain c member).1.ne (by decide)
    simp [endsAuthority, (plain c member).2, query, fragment]
  cases path with
  | nil => simp at rooted
  | cons slash rest =>
      obtain rfl : slash = '/' := Option.some.inj rooted
      rw [splitAuthority, List.takeWhile_append_of_pos inside, List.dropWhile_append_of_pos inside]
      simp [endsAuthority]

private theorem checkBrackets_of_written {authority : Text} (plain : ∀ c ∈ authority, IsWritten c) :
    Authority.checkBrackets authority = .ok () := by
  have closed (bracket : Char) (other : isUnreserved bracket = false ∧ bracket ≠ '%' ∧
      bracket ≠ ':') : authority.contains bracket = false := by
    rw [List.contains_eq_mem, decide_eq_false_iff_not]
    intro member
    exact (plain bracket member).ne other rfl
  have left := closed '[' (by decide)
  have right := closed ']' (by decide)
  rw [Authority.checkBrackets, left, right]
  rfl

private theorem checkCharacters_of_written {authority : Text}
    (plain : ∀ c ∈ authority, IsWritten c) :
    Authority.checkCharacters authority = .ok () := by
  have far : ∀ code ∈ Authority.hiddenDelimiters, 0x80 ≤ code := by decide
  rw [Authority.checkCharacters, if_neg]
  intro hidden
  obtain ⟨c, member, delimiter⟩ := List.any_eq_true.mp hidden
  have ascii := (plain c member).ascii
  have large := far c.toNat (by simpa using delimiter)
  omega

/-- A file URI of written characters is taken apart where it was put together. -/
theorem split_of_written {authority path : Text} (plain : ∀ c ∈ authority, IsWritten c ∧ c ≠ '/')
    (written : ∀ c ∈ path, IsWritten c) (rooted : path.head? = some '/') :
    split ("file://".toList ++ authority ++ path) =
      .ok ⟨"file".toList, percentDecode authority, percentDecode path⟩ := by
  have lead : "file://".toList.all fun c => isUnreserved c || c == ':' := by decide
  have spelled : ∀ c ∈ "file://".toList ++ authority ++ path, IsWritten c := by
    intro c member
    rcases List.mem_append.mp member with start | below
    · rcases List.mem_append.mp start with scheme | host
      · have kept : isUnreserved c ∨ c = ':' := by simpa using List.all_eq_true.mp lead c scheme
        exact kept.imp_right .inr
      · exact (plain c host).1
    · exact written c below
  have host : ∀ c ∈ authority, IsWritten c := fun c member => (plain c member).1
  have leading : ("file://".toList ++ authority ++ path).dropWhile isLeadingNoise =
      "file://".toList ++ authority ++ path := rfl
  have scheme : splitScheme ("file://".toList ++ authority ++ path) =
      ("file".toList, '/' :: '/' :: (authority ++ path)) := rfl
  have bare : percentDecode "file".toList = "file".toList := by decide
  have parameters : parameterSchemes.contains "file".toList = false := by decide
  unfold split
  rw [leading, filter_of_written spelled, scheme]
  simp only [splitAuthority_of_written plain rooted, checkBrackets_of_written host,
    checkCharacters_of_written host, takeWhile_of_written written '#' (by decide),
    takeWhile_of_written written '?' (by decide), bare, parameters]
  rfl

/-! ## Drives -/

theorem hasDrive_eq_true_iff {text : Text} :
    hasDrive text = true ↔ ∃ letter rest, text = '/' :: letter :: ':' :: rest ∧ letter.isAlpha := by
  unfold hasDrive
  split
  · next letter rest => simp
  · next other =>
    simp only [Bool.false_eq_true, false_iff]
    intro drive
    obtain ⟨letter, rest, same, -⟩ := drive
    exact other letter rest same

theorem smallDrive_of_hasDrive {letter : Char} (alphabetic : letter.isAlpha) (rest : Text) :
    smallDrive ('/' :: letter :: ':' :: rest) = '/' :: letter.toLower :: ':' :: rest := by
  rw [smallDrive, if_pos (by simpa [hasDrive] using alphabetic)]

theorem smallDrive_of_not_hasDrive {text : Text} (driveless : hasDrive text = false) :
    smallDrive text = text := by
  unfold smallDrive
  split
  · rw [if_neg (by simp [driveless])]
  · rfl

private theorem head?_smallDrive (text : Text) : (smallDrive text).head? = text.head? := by
  unfold smallDrive
  split
  · split
    · rfl
    · rfl
  · rfl

theorem toLower_of_isAlpha {letter : Char} (alphabetic : letter.isAlpha) :
    letter.toLower.isAlpha ∧ (letter.toLower = letter ↔ letter.isUpper = false) := by
  have all : ∀ code < 128, (Char.ofNat code).isAlpha →
      (Char.ofNat code).toLower.isAlpha ∧
        ((Char.ofNat code).toLower = Char.ofNat code ↔ (Char.ofNat code).isUpper = false) := by
    decide
  have bounds : 33 ≤ letter.toNat ∧ letter.toNat < 127 :=
    toNat_of_isNameChar (by simp [isNameChar, Char.isAlphanum, alphabetic])
  have here := all letter.toNat (by omega)
  rw [Char.ofNat_toNat] at here
  exact here alphabetic

/-- A drive stays as it is exactly if its letter is not a capital. -/
theorem smallDrive_eq_self_iff {letter : Char} (alphabetic : letter.isAlpha) (rest : Text) :
    smallDrive ('/' :: letter :: ':' :: rest) = '/' :: letter :: ':' :: rest ↔
      letter.isUpper = false := by
  rw [smallDrive_of_hasDrive alphabetic, ← (toLower_of_isAlpha alphabetic).2]
  simp

/-- A path as it stands in a file URI. -/
def writtenPath (rooted : Text) : Text :=
  if hasDrive rooted then rooted.take 3 ++ percentEncode (rooted.drop 3) else percentEncode rooted

theorem ofFilePath_eq {path authority below : Text}
    (parted : splitNetworkPath path = .ok (authority, below)) (rooted : below.head? = some '/') :
    ofFilePath path =
      .ok ("file://".toList ++ percentEncode authority ++ writtenPath (smallDrive below)) := by
  rw [ofFilePath, parted]
  simp only [bind, Except.bind, pure, Except.pure, if_pos rooted]
  rfl

/-- At most a drive stands unescaped before the escaped rest of a path. -/
theorem writtenPath_cases {rooted : Text} (slash : rooted.head? = some '/') :
    ∃ lead rest, rooted = '/' :: lead ++ rest ∧
      writtenPath rooted = '/' :: lead ++ percentEncode rest ∧
      ∀ c ∈ '/' :: lead, IsWritten c ∧ c ≠ '%' := by
  cases drive : hasDrive rooted with
  | true =>
      obtain ⟨letter, rest, rfl, alphabetic⟩ := hasDrive_eq_true_iff.mp drive
      have kept : isUnreserved letter := by simp [isUnreserved, Char.isAlphanum, alphabetic]
      refine ⟨[letter, ':'], rest, rfl, by rw [writtenPath, if_pos drive]; rfl, ?_⟩
      intro c member
      simp only [List.mem_cons, List.not_mem_nil, or_false] at member
      rcases member with rfl | rfl | rfl
      · exact ⟨.inl (by decide), by decide⟩
      · exact ⟨.inl kept, (isUnreserved_bounds kept).2⟩
      · exact ⟨.inr (.inr rfl), by decide⟩
  | false =>
      cases rooted with
      | nil => simp at slash
      | cons first rest =>
          obtain rfl : first = '/' := Option.some.inj slash
          refine ⟨[], rest, rfl, ?_, ?_⟩
          · rw [writtenPath, if_neg (by simp [drive]), percentEncode_cons]
            rfl
          · intro c member
            rw [List.mem_singleton.mp member]
            exact ⟨.inl (by decide), by decide⟩

/-- A written file URI stands for the authority and the path of which it was written. -/
theorem filePath?_of_written {authority rooted : Text} (plain : '/' ∉ authority)
    (slash : rooted.head? = some '/') :
    filePath? ("file://".toList ++ percentEncode authority ++ writtenPath rooted) =
      .ok (Parts.filePath? ⟨"file".toList, authority, rooted⟩) := by
  obtain ⟨lead, rest, rfl, written, spelled⟩ := writtenPath_cases slash
  have host : ∀ c ∈ percentEncode authority, IsWritten c ∧ c ≠ '/' := by
    intro c member
    refine ⟨isWritten_of_mem_percentEncode member, ?_⟩
    rintro rfl
    exact slash_not_mem_percentEncode plain member
  have below : ∀ c ∈ writtenPath ('/' :: lead ++ rest), IsWritten c := by
    rw [written]
    intro c member
    rcases List.mem_append.mp member with start | escaped
    · exact (spelled c start).1
    · exact isWritten_of_mem_percentEncode escaped
  have starts : (writtenPath ('/' :: lead ++ rest)).head? = some '/' := by
    rw [written]
    rfl
  have decodedHost : percentDecode (percentEncode authority) = authority :=
    percentDecode_append_percentEncode (fun c member => absurd member List.not_mem_nil) authority
  have decodedPath : percentDecode (writtenPath ('/' :: lead ++ rest)) = '/' :: lead ++ rest := by
    rw [written]
    apply percentDecode_append_percentEncode
    intro c member
    exact ⟨(spelled c member).1.ascii, (spelled c member).2⟩
  rw [filePath?, split_of_written host below starts, decodedHost, decodedPath]
  rfl

end Uri

/-! ## Paths -/

namespace Path

/-- A path from the root as paths are read: no part is a dot. -/
structure IsNormal (path : Path) : Prop extends path.IsRooted where
  undotted : ['.'] ∉ path.parts

/-- A path that starts with a drive, or whose share on the network starts with one in a capital
letter. -/
def NamesDrive (path : Path) : Prop :=
  (path.anchor = .root ∧
      ∃ letter rest others, path.parts = (letter :: ':' :: rest) :: others ∧ letter.isAlpha) ∨
    path.anchor = .doubleRoot ∧
      ∃ host letter rest others, path.parts = host :: (letter :: ':' :: rest) :: others ∧
        letter.isUpper

private theorem anchorOf_toText {path : Path} (rooted : path.IsRooted) :
    anchorOf path.toText = path.anchor := by
  obtain ⟨anchor, parts⟩ := path
  have other : (Text.joinWith ['/'] parts).head? ≠ some '/' :=
    Text.head?_joinWith_ne rooted.occupied rooted.plain
  have slashless : (Text.joinWith ['/'] parts).takeWhile (· == '/') = [] := by
    cases below : Text.joinWith ['/'] parts with
    | nil => rfl
    | cons first rest =>
        have different : first ≠ '/' := by simpa [below] using other
        simp [different]
  cases anchor with
  | relative => exact absurd rfl rooted.anchored
  | root => simp [anchorOf, toText, slashless]
  | doubleRoot => simp [anchorOf, toText, slashless]

theorem ofText_toText {path : Path} (normal : path.IsNormal) : ofText path.toText = path := by
  obtain ⟨lead, empty, pieces⟩ := splitAtChar_toText normal.toIsRooted
  have dropped : lead.filter isPart = [] := by
    rw [List.filter_eq_nil_iff]
    intro piece member
    simp [empty piece member, isPart]
  have kept : path.parts.filter isPart = path.parts := by
    rw [List.filter_eq_self]
    intro part member
    have dotless : part ≠ ['.'] := fun dot => normal.undotted (dot ▸ member)
    simp [isPart, normal.occupied part member, dotless]
  rw [ofText, anchorOf_toText normal.toIsRooted, pieces, List.filter_append, dropped, kept,
    List.nil_append]

end Path

/-! ## Paths that come back -/

namespace Uri

/-- A local path without a drive comes back from its URI; one with a drive comes back without
the first slash. -/
theorem filePath?_ofFilePath_root {below uri : Text} (single : below.head? ≠ some '/')
    (written : ofFilePath ('/' :: below) = .ok uri) :
    filePath? uri = .ok (some ('/' :: below)) ↔ hasDrive ('/' :: below) = false := by
  rw [ofFilePath_eq (splitNetworkPath_of_head single) rfl] at written
  obtain rfl := Except.ok.inj written
  cases drive : hasDrive ('/' :: below) with
  | false =>
      rw [smallDrive_of_not_hasDrive drive, filePath?_of_written List.not_mem_nil rfl]
      simp [Parts.filePath?, drive]
  | true =>
      obtain ⟨letter, rest, same, alphabetic⟩ := hasDrive_eq_true_iff.mp drive
      have small := (toLower_of_isAlpha alphabetic).1
      rw [same, smallDrive_of_hasDrive alphabetic, filePath?_of_written List.not_mem_nil rfl]
      simp [Parts.filePath?, hasDrive, small, smallDrive]

private theorem splitNetworkPath_of_host {host : Text} (plain : '/' ∉ host) (below : Text) :
    splitNetworkPath ('/' :: '/' :: (host ++ '/' :: below)) = .ok (host, '/' :: below) := by
  have apart : ∀ c ∈ host, c != '/' := by
    intro c member
    rw [bne_iff_ne]
    intro slash
    exact plain (slash ▸ member)
  rw [splitNetworkPath, if_pos (by simp), List.takeWhile_append_of_pos apart,
    List.dropWhile_append_of_pos apart]
  simp

/-- A path on the network comes back from its URI, unless that makes a drive letter small. -/
theorem filePath?_ofFilePath_doubleRoot {host below uri : Text} (plain : '/' ∉ host)
    (occupied : host ≠ [])
    (written : ofFilePath ('/' :: '/' :: (host ++ '/' :: below)) = .ok uri) :
    filePath? uri = .ok (some ('/' :: '/' :: (host ++ '/' :: below))) ↔
      smallDrive ('/' :: below) = '/' :: below := by
  have starts : (smallDrive ('/' :: below)).head? = some '/' := head?_smallDrive _
  have full : smallDrive ('/' :: below) ≠ [] := by
    intro empty
    rw [empty] at starts
    simp at starts
  rw [ofFilePath_eq (splitNetworkPath_of_host plain below) rfl] at written
  obtain rfl := Except.ok.inj written
  rw [filePath?_of_written plain starts]
  simp [Parts.filePath?, occupied, full]

theorem exists_joinWith_drive (letter : Char) (rest : Text) (others : List Text) :
    ∃ tail, Text.joinWith ['/'] ((letter :: ':' :: rest) :: others) = letter :: ':' :: tail := by
  cases others with
  | nil => exact ⟨rest, rfl⟩
  | cons next others => exact ⟨_, rfl⟩

/-- Joined parts start with a drive exactly if the first of them does. -/
theorem hasDrive_joinWith_iff {parts : List Text} (occupied : ∀ part ∈ parts, part ≠ []) :
    hasDrive ('/' :: Text.joinWith ['/'] parts) = true ↔
      ∃ letter rest others, parts = (letter :: ':' :: rest) :: others ∧ letter.isAlpha := by
  rw [hasDrive_eq_true_iff]
  constructor
  · intro drive
    obtain ⟨letter, rest, same, alphabetic⟩ := drive
    have joined : Text.joinWith ['/'] parts = letter :: ':' :: rest := (List.cons.inj same).2
    match parts with
    | [] => simp [Text.joinWith] at joined
    | [] :: _ => exact absurd rfl (occupied [] List.mem_cons_self)
    | [_] :: [] => simp [Text.joinWith] at joined
    | [_] :: _ :: _ => simp [Text.joinWith] at joined
    | (first :: second :: more) :: others =>
        have heads : first = letter ∧ second = ':' := by
          cases others with
          | nil => exact ⟨(List.cons.inj joined).1, (List.cons.inj (List.cons.inj joined).2).1⟩
          | cons => exact ⟨(List.cons.inj joined).1, (List.cons.inj (List.cons.inj joined).2).1⟩
        rw [heads.1, heads.2]
        exact ⟨letter, more, others, rfl, alphabetic⟩
  · intro drive
    obtain ⟨letter, rest, others, rfl, alphabetic⟩ := drive
    obtain ⟨tail, joined⟩ := exists_joinWith_drive letter rest others
    exact ⟨letter, tail, congrArg ('/' :: ·) joined, alphabetic⟩

private theorem smallDrive_joinWith_iff {parts : List Text} (occupied : ∀ part ∈ parts, part ≠ []) :
    smallDrive ('/' :: Text.joinWith ['/'] parts) = '/' :: Text.joinWith ['/'] parts ↔
      ¬ ∃ letter rest others, parts = (letter :: ':' :: rest) :: others ∧ letter.isUpper := by
  have drives := hasDrive_joinWith_iff occupied
  cases drive : hasDrive ('/' :: Text.joinWith ['/'] parts) with
  | false =>
      rw [smallDrive_of_not_hasDrive drive]
      simp only [true_iff]
      intro capital
      obtain ⟨letter, rest, others, same, upper⟩ := capital
      have letters : letter.isAlpha = (letter.isUpper || letter.isLower) := rfl
      have alphabetic : letter.isAlpha := by rw [letters, upper, Bool.true_or]
      rw [drives.mpr ⟨letter, rest, others, same, alphabetic⟩] at drive
      cases drive
  | true =>
      obtain ⟨letter, rest, others, rfl, alphabetic⟩ := drives.mp drive
      obtain ⟨tail, joined⟩ := exists_joinWith_drive letter rest others
      rw [joined, smallDrive_eq_self_iff alphabetic]
      simp

/-- The URI of a path stands for that path again, exactly if it names no drive. -/
theorem filePath?_ofFilePath {path : Path} (rooted : path.IsRooted) {uri : Text}
    (written : ofFilePath path.toText = .ok uri) :
    filePath? uri = .ok (some path.toText) ↔ ¬ path.NamesDrive := by
  obtain ⟨anchor, parts⟩ := path
  have proper : ∀ part ∈ parts, part ≠ [] ∧ '/' ∉ part := fun part member =>
    ⟨rooted.occupied part member, rooted.plain part member⟩
  cases anchor with
  | relative => exact absurd rfl rooted.anchored
  | root =>
      have single : (Text.joinWith ['/'] parts).head? ≠ some '/' :=
        Text.head?_joinWith_ne rooted.occupied rooted.plain
      show filePath? uri = .ok (some ('/' :: Text.joinWith ['/'] parts)) ↔ _
      rw [filePath?_ofFilePath_root single written, ← Bool.not_eq_true,
        hasDrive_joinWith_iff rooted.occupied]
      simp [Path.NamesDrive]
  | doubleRoot =>
      match parts with
      | [] => cases ((ofFilePath_error_iff proper).mpr ⟨rfl, by simp, rfl⟩).symm.trans written
      | [_] => cases ((ofFilePath_error_iff proper).mpr ⟨rfl, by simp, rfl⟩).symm.trans written
      | host :: share :: others =>
          have text : Path.toText ⟨.doubleRoot, host :: share :: others⟩ =
              '/' :: '/' :: (host ++ '/' :: Text.joinWith ['/'] (share :: others)) := by
            simp [Path.toText, Text.joinWith]
          rw [text] at written ⊢
          rw [filePath?_ofFilePath_doubleRoot (proper host List.mem_cons_self).2
              (proper host List.mem_cons_self).1 written,
            smallDrive_joinWith_iff fun part member =>
              (proper part (List.mem_cons_of_mem host member)).1]
          simp [Path.NamesDrive]

end Uri

end GrammarLens
