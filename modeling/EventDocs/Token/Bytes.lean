import EventDocs.Text.Utf8
import EventDocs.Token.Lexer

/-
From bytes to tokens. The reader of bytes stands at an offset of its input and knows line and
column there; one move (`advance`) changes all three. It looks at single bytes only, and cuts
texts out of its input by their offsets, which fails between the bytes of one character
(`Utf8.slice?`). A failed cut is a failed reading.

Reading ends because each token but the end token leaves less of the input ahead
(`length_rest_next_lt`).
-/

namespace EventDocs

open Utf8

-- ============================================================ single bytes

/-- The place behind a byte. Columns count characters, so the bytes that continue one do not
count. -/
def Position.stepByte (p : Position) (b : UInt8) : Position :=
  if b = '\n'.toUInt8 then ⟨p.line + 1, 1⟩
  else if b &&& 0xC0 ≠ 0x80 then ⟨p.line, p.column + 1⟩
  else p

/-- The kind of a single white space byte, if it is one. -/
def Kind.ofWhiteByte? (b : UInt8) : Option Kind :=
  if b = ' '.toUInt8 then some space
  else if b = '\t'.toUInt8 then some tab
  else if b = '\n'.toUInt8 then some newLine
  else if b = '\r'.toUInt8 then some carriageReturn
  else if b = 0x0C then some formFeed
  else none

-- ============================================================ the reader

/-- A reader in the middle of its input, `pos` bytes behind the start. -/
structure ByteCursor where
  source : Source
  input : Bytes
  pos : Nat
  position : Position
deriving DecidableEq, Repr

namespace ByteCursor

/-- The reader at the start of its input. -/
def ofBytes (source : Source) (input : Bytes) : ByteCursor := ⟨source, input, 0, .start⟩

/-- The byte so many bytes ahead. -/
def peek (r : ByteCursor) (offset : Nat) : Option UInt8 := r.input[r.pos + offset]?

/-- The bytes ahead. -/
def rest (r : ByteCursor) : Bytes := r.input.drop r.pos

/-- Move on by so many bytes, or to the end of the input. -/
def advance (r : ByteCursor) (n : Nat) : ByteCursor :=
  { r with
    pos := min (r.pos + n) r.input.length
    position := (r.rest.take n).foldl Position.stepByte r.position }

/-- The text from an offset to here. -/
def since? (r : ByteCursor) (start : Nat) : Option String := slice? r.input start r.pos

theorem rest_advance (r : ByteCursor) (n : Nat) : (r.advance n).rest = r.rest.drop n := by
  show r.input.drop (min (r.pos + n) r.input.length) = (r.input.drop r.pos).drop n
  rw [List.drop_drop]
  rcases Nat.le_total (r.pos + n) r.input.length with h | h
  · rw [Nat.min_eq_left h]
  · rw [Nat.min_eq_right h, List.drop_length, List.drop_eq_nil_of_le h]

theorem length_rest_pos {r : ByteCursor} {b : UInt8} (h : r.peek 0 = some b) :
    0 < r.rest.length := by
  have hlt : r.pos < r.input.length := (List.getElem?_eq_some_iff.mp h).1
  rw [rest, List.length_drop]
  omega

/-- With something ahead, a move leaves less of it. -/
theorem length_rest_advance_lt {r : ByteCursor} {b : UInt8} {n : Nat} (h : r.peek 0 = some b)
    (hn : 0 < n) : (r.advance n).rest.length < r.rest.length := by
  have hpos := length_rest_pos h
  rw [rest_advance, List.length_drop]
  omega

-- ============================================================ readers of one token

/-- Go on behind the spaces. -/
def skipSpaces (r : ByteCursor) : ByteCursor :=
  if _ : r.peek 0 = some ' '.toUInt8 then (r.advance 1).skipSpaces else r
  termination_by r.rest.length
  decreasing_by exact length_rest_advance_lt ‹_› Nat.one_pos

/-- Go on to the line break that ends the metadata of a begin marker. A segment of the metadata
starts at `start`, and what stands before that segment is captured already; each escaped line
break ends a segment. -/
def passMetadata (r : ByteCursor) (start : Nat) (captured : String) :
    Option (Nat × String × ByteCursor) :=
  match _ : r.peek 0 with
  | none => some (start, captured, r)
  | some b =>
    if b = '\n'.toUInt8 then some (start, captured, r)
    else if b = '\\'.toUInt8 ∧ r.peek 1 = some '\n'.toUInt8 then do
      let segment ← r.since? start
      (r.advance 2).passMetadata (r.advance 2).pos (captured ++ segment)
    else if b = '\\'.toUInt8 ∧ r.peek 1 = some '\r'.toUInt8 ∧ r.peek 2 = some '\n'.toUInt8 then do
      let segment ← r.since? start
      (r.advance 3).passMetadata (r.advance 3).pos (captured ++ segment)
    else (r.advance 1).passMetadata start captured
  termination_by r.rest.length
  decreasing_by
    all_goals exact length_rest_advance_lt ‹_› (by decide)

/-- The metadata of a begin marker, without its escaped line breaks and without white space at
its ends. -/
def readMetadata (r : ByteCursor) : Option (String × ByteCursor) := do
  let (start, captured, behind) ← r.passMetadata r.pos ""
  let segment ← behind.since? start
  return (.ofList (Text.trim (captured ++ segment).toList), behind)

/-- The words behind a slash pair, as bytes. -/
def beginWord : Bytes := encode "+gendoc"

def endWord : Bytes := encode "-gendoc"

def opener : Bytes := encode "<!--"

def closer : Bytes := encode "-->"

/-- A slash, a pair of them, or a marker with its metadata. -/
def readSlash (r : ByteCursor) : Option (Kind × String × ByteCursor) :=
  if r.peek 1 ≠ some '/'.toUInt8 then some (.slash, "", r.advance 1)
  else
    let behind := r.rest.drop 2
    if beginWord.isPrefixOf behind then do
      let (metadata, behind) ← (r.advance (2 + beginWord.length)).readMetadata
      return (.beginMarker, metadata, behind)
    else if endWord.length ≤ behind.length ∧
        (behind.take endWord.length).map lowerByte = endWord.map lowerByte then
      some (.endMarker, "", r.advance (2 + endWord.length))
    else some (.doubleSlash, "", r.advance 2)

/-- A comment delimiter and the spaces behind it, or else one byte of text. -/
def readComment (r : ByteCursor) (delimiter : Bytes) (k : Kind) : Kind × String × ByteCursor :=
  if delimiter.isPrefixOf r.rest then (k, "", (r.advance delimiter.length).skipSpaces)
  else (.text, "", r.advance 1)

/-- Bytes at which a run of text stops. -/
def isBoundary (b : UInt8) : Bool :=
  (Kind.ofWhiteByte? b).isSome || b < 0x20 || (encode "/#<-").contains b

/-- A run of text, one byte at least. -/
def readText (r : ByteCursor) : ByteCursor :=
  r.advance (max (r.rest.findIdx isBoundary) 1)

/-- Kind and metadata of the next token, and the reader behind it. -/
def read (r : ByteCursor) : Option (Kind × String × ByteCursor) :=
  match r.peek 0 with
  | none => some (.endOfText, "", r)
  | some b =>
    if b = '/'.toUInt8 then r.readSlash
    else if b = '#'.toUInt8 then some (.hash, "", r.advance 1)
    else if b = '<'.toUInt8 then some (r.readComment opener .openComment)
    else if b = '-'.toUInt8 then some (r.readComment closer .closeComment)
    else
      match Kind.ofWhiteByte? b with
      | some k => some (k, "", r.advance 1)
      | none => if b < 0x20 then some (.illegal, "", r.advance 1) else some (.text, "", r.readText)

/-- The next token and the reader behind it. -/
def next (r : ByteCursor) : Option (Token × ByteCursor) := do
  let (kind, metadata, behind) ← r.read
  let literal ← behind.since? r.pos
  return ({ kind, literal, metadata, line := r.position.line, column := r.position.column,
            source := r.source }, behind)

-- ------------------------------------------------ progress

variable {r behind : ByteCursor}

theorem length_rest_skipSpaces_le (r : ByteCursor) : r.skipSpaces.rest.length ≤ r.rest.length := by
  fun_induction skipSpaces r with
  | case1 r h ih => exact Nat.le_trans ih (Nat.le_of_lt (length_rest_advance_lt h Nat.one_pos))
  | case2 r h => exact Nat.le_refl _

theorem length_rest_passMetadata_le {start start' : Nat} {captured captured' : String}
    (h : r.passMetadata start captured = some (start', captured', behind)) :
    behind.rest.length ≤ r.rest.length := by
  fun_induction passMetadata r start captured with
  | case1 r start captured hpeek =>
      cases h
      exact Nat.le_refl _
  | case2 r start captured hpeek =>
      cases h
      exact Nat.le_refl _
  | case3 r start captured b hpeek _ _ ih =>
      obtain ⟨segment, -, h⟩ := Option.bind_eq_some_iff.mp h
      exact Nat.le_trans (ih segment h) (Nat.le_of_lt (length_rest_advance_lt hpeek (by decide)))
  | case4 r start captured b hpeek _ _ _ ih =>
      obtain ⟨segment, -, h⟩ := Option.bind_eq_some_iff.mp h
      exact Nat.le_trans (ih segment h) (Nat.le_of_lt (length_rest_advance_lt hpeek (by decide)))
  | case5 r start captured b hpeek _ _ _ ih =>
      exact Nat.le_trans (ih h) (Nat.le_of_lt (length_rest_advance_lt hpeek (by decide)))

theorem length_rest_readMetadata_le {metadata : String}
    (h : r.readMetadata = some (metadata, behind)) : behind.rest.length ≤ r.rest.length := by
  obtain ⟨⟨start, captured, last⟩, hpass, h⟩ := Option.bind_eq_some_iff.mp h
  obtain ⟨segment, -, h⟩ := Option.bind_eq_some_iff.mp h
  cases h
  exact length_rest_passMetadata_le hpass

theorem length_rest_readSlash_lt {b : UInt8} {k : Kind} {metadata : String}
    (hpeek : r.peek 0 = some b) (h : r.readSlash = some (k, metadata, behind)) :
    behind.rest.length < r.rest.length := by
  unfold readSlash at h
  split at h
  · cases h
    exact length_rest_advance_lt hpeek (by decide)
  · dsimp only at h
    split at h
    · obtain ⟨⟨metadata, last⟩, hmetadata, h⟩ := Option.bind_eq_some_iff.mp h
      cases h
      exact Nat.lt_of_le_of_lt (length_rest_readMetadata_le hmetadata)
        (length_rest_advance_lt hpeek (by omega))
    · split at h
      · cases h
        exact length_rest_advance_lt hpeek (by omega)
      · cases h
        exact length_rest_advance_lt hpeek (by decide)

theorem length_rest_readComment_lt {b : UInt8} {delimiter : Bytes} (hpeek : r.peek 0 = some b)
    (hd : delimiter ≠ []) (k : Kind) :
    (r.readComment delimiter k).2.2.rest.length < r.rest.length := by
  unfold readComment
  split
  · exact Nat.lt_of_le_of_lt (length_rest_skipSpaces_le _)
      (length_rest_advance_lt hpeek (List.length_pos_iff.mpr hd))
  · exact length_rest_advance_lt hpeek Nat.one_pos

/-- Every token but the end token takes something. -/
theorem length_rest_read_lt {k : Kind} {metadata : String}
    (h : r.read = some (k, metadata, behind)) (hk : k ≠ .endOfText) :
    behind.rest.length < r.rest.length := by
  unfold read at h
  split at h
  · cases h
    exact absurd rfl hk
  · next b hpeek =>
    split at h
    · exact length_rest_readSlash_lt hpeek h
    · split at h
      · cases h
        exact length_rest_advance_lt hpeek Nat.one_pos
      · split at h
        · have hlt := length_rest_readComment_lt hpeek (by decide : opener ≠ []) .openComment
          rw [Option.some.inj h] at hlt
          exact hlt
        · split at h
          · have hlt := length_rest_readComment_lt hpeek (by decide : closer ≠ []) .closeComment
            rw [Option.some.inj h] at hlt
            exact hlt
          · split at h
            · cases h
              exact length_rest_advance_lt hpeek Nat.one_pos
            · split at h
              · cases h
                exact length_rest_advance_lt hpeek Nat.one_pos
              · cases h
                exact length_rest_advance_lt hpeek (by omega)

theorem length_rest_next_lt {t : Token} (h : r.next = some (t, behind))
    (ht : ¬ t.kind = .endOfText) : behind.rest.length < r.rest.length := by
  obtain ⟨⟨k, metadata, last⟩, hread, h⟩ := Option.bind_eq_some_iff.mp h
  obtain ⟨literal, -, h⟩ := Option.bind_eq_some_iff.mp h
  cases h
  exact length_rest_read_lt hread ht

-- ============================================================ whole inputs

/-- The tokens ahead, without the one at the end of the input. -/
def tokens (r : ByteCursor) : Option (List Token) :=
  match _ : r.next with
  | none => none
  | some (t, behind) =>
    if _ : t.kind = .endOfText then some [] else do return t :: (← behind.tokens)
  termination_by r.rest.length
  decreasing_by exact length_rest_next_lt ‹_› ‹_›

end ByteCursor

end EventDocs
