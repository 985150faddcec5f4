/-
UTF-8 as the meaning of a file's bytes. Encoding is exact. Decoding never
fails: wherever the bytes stop being UTF-8, the longest stretch that could
still have begun a character (one byte at least) becomes one U+FFFD, and
reading goes on behind it.

All arithmetic is on natural numbers, in base 64, so that facts about it are
facts of `omega`.
-/

namespace EventDocs

/-- The content of a file. -/
abbrev Bytes := List UInt8

namespace Utf8

-- ============================================================ encoding

/-- The one to four bytes of a character. -/
def encodeChar (c : Char) : Bytes :=
  let n := c.toNat
  if n < 0x80 then [.ofNat n]
  else if n < 0x800 then [.ofNat (0xC0 + n / 64), .ofNat (0x80 + n % 64)]
  else if n < 0x10000 then
    [.ofNat (0xE0 + n / 4096), .ofNat (0x80 + n / 64 % 64), .ofNat (0x80 + n % 64)]
  else
    [.ofNat (0xF0 + n / 262144), .ofNat (0x80 + n / 4096 % 64),
      .ofNat (0x80 + n / 64 % 64), .ofNat (0x80 + n % 64)]

/-- The bytes of a text. -/
def encode (s : String) : Bytes :=
  s.toList.flatMap encodeChar

-- ============================================================ decoding

/-- Stands for bytes that are no character. -/
def replacement : Char := '\uFFFD'

/-- A byte that continues a character. -/
def isTail (b : Nat) : Bool := 0x80 ≤ b && b ≤ 0xBF

/-- May `b` follow the first byte `lead` of a longer character? The bounds
leave out overlong forms, surrogates and numbers beyond U+10FFFF. -/
def isSecond (lead b : Nat) : Bool :=
  if lead == 0xE0 then 0xA0 ≤ b && b ≤ 0xBF
  else if lead == 0xED then 0x80 ≤ b && b ≤ 0x9F
  else if lead == 0xF0 then 0x90 ≤ b && b ≤ 0xBF
  else if lead == 0xF4 then 0x80 ≤ b && b ≤ 0x8F
  else isTail b

/-- How many bytes the character that starts with `lead` has, or zero if none
starts so. -/
def width (lead : Nat) : Nat :=
  if lead < 0x80 then 1
  else if 0xC2 ≤ lead && lead ≤ 0xDF then 2
  else if 0xE0 ≤ lead && lead ≤ 0xEF then 3
  else if 0xF0 ≤ lead && lead ≤ 0xF4 then 4
  else 0

/-- The first character, and how many bytes after `lead` belong to it. -/
def firstChar (lead : Nat) (rest : List Nat) : Char × Nat :=
  match width lead, rest with
  | 1, _ => (.ofNat lead, 0)
  | 2, b :: _ =>
    if isTail b then (.ofNat ((lead - 0xC0) * 64 + (b - 0x80)), 1) else (replacement, 0)
  | 3, [b] => (replacement, if isSecond lead b then 1 else 0)
  | 3, b :: c :: _ =>
    if !isSecond lead b then (replacement, 0)
    else if !isTail c then (replacement, 1)
    else (.ofNat ((lead - 0xE0) * 4096 + (b - 0x80) * 64 + (c - 0x80)), 2)
  | 4, [b] => (replacement, if isSecond lead b then 1 else 0)
  | 4, [b, c] =>
    (replacement, if !isSecond lead b then 0 else if !isTail c then 1 else 2)
  | 4, b :: c :: d :: _ =>
    if !isSecond lead b then (replacement, 0)
    else if !isTail c then (replacement, 1)
    else if !isTail d then (replacement, 2)
    else
      (.ofNat ((lead - 0xF0) * 262144 + (b - 0x80) * 4096 + (c - 0x80) * 64 + (d - 0x80)), 3)
  | _, _ => (replacement, 0)

/-- Decode byte values, putting U+FFFD where they are not UTF-8. -/
def decodeValues : List Nat → List Char
  | [] => []
  | b :: bs =>
    let first := firstChar b bs
    first.1 :: decodeValues (bs.drop first.2)
  termination_by bs => bs.length
  decreasing_by simp only [List.length_drop, List.length_cons]; omega

/-- The text of a file's bytes, with U+FFFD where they are not UTF-8. -/
def decode (bs : Bytes) : String :=
  .ofList (decodeValues (bs.map UInt8.toNat))

-- ============================================================ cuts

/-- May a text be cut at this offset? -/
def isCut (bs : Bytes) (i : Nat) : Bool :=
  match bs[i]? with
  | some b => !isTail b.toNat
  | none => i == bs.length

/-- The text between two offsets, if it may be cut at both. -/
def slice? (bs : Bytes) (i j : Nat) : Option String :=
  if i ≤ j && isCut bs i && isCut bs j then some (decode ((bs.take j).drop i)) else none

-- ============================================================ letters

/-- An ASCII letter in lower case; every other byte is left as it is. -/
def lowerByte (b : UInt8) : UInt8 :=
  if 'A'.toUInt8 ≤ b && b ≤ 'Z'.toUInt8 then b + 0x20 else b

end Utf8

end EventDocs
