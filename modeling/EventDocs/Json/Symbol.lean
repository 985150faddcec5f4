/-
JSON text as a list of symbols: punctuation, the three words, strings and
numbers, with the white space between them gone. Whether the symbols make up a
value is the business of `EventDocs.Json.Tree`.

Strings and numbers are kept as they were written as far as it matters later. A
string whose escapes leave a surrogate without its partner is well-formed but
spells no text; whether that is an error depends on who reads it. A number
keeps its digits, because what it means depends on their number too.
-/

namespace EventDocs.Json

-- ============================================================ the symbols

/-- A number as it was written. -/
structure Numeral where
  negative : Bool
  /-- Digits before the point: a single zero, or no zero in front. -/
  whole : List Char
  /-- Digits behind the point, if there is one. -/
  fraction : Option (List Char)
  /-- Sign (is it negative?) and digits of the exponent, if there is one. -/
  exponent : Option (Bool × List Char)
deriving DecidableEq, Repr, Inhabited

/-- A string as it was written: its text, or `none` if an escaped surrogate
lacks its partner. -/
abbrev Spelling := Option String

inductive Symbol where
  | openArray
  | closeArray
  | openObject
  | closeObject
  | comma
  | colon
  | null
  | bool (value : Bool)
  | number (value : Numeral)
  | string (value : Spelling)
deriving DecidableEq, Repr

-- ============================================================ strings

/-- What a string is made of: characters, and code units of UTF-16 that were
escaped by number. -/
inductive StringItem where
  | char (c : Char)
  | unit (n : Nat)
deriving DecidableEq, Repr

namespace StringItem

def isHighSurrogate (n : Nat) : Bool := 0xD800 ≤ n && n ≤ 0xDBFF

def isLowSurrogate (n : Nat) : Bool := 0xDC00 ≤ n && n ≤ 0xDFFF

/-- The text of the items, unless a surrogate is without its partner. The
characters read so far are kept in `done`, last one first. -/
def spell (done : List Char) : List StringItem → Spelling
  | [] => some (.ofList done.reverse)
  | .char c :: items => spell (c :: done) items
  | .unit high :: .unit low :: items =>
    if isHighSurrogate high && isLowSurrogate low then
      spell (.ofNat (0x10000 + (high - 0xD800) * 1024 + (low - 0xDC00)) :: done) items
    else if isHighSurrogate high || isLowSurrogate high then none
    else spell (.ofNat high :: done) (.unit low :: items)
  | .unit n :: items =>
    if isHighSurrogate n || isLowSurrogate n then none else spell (.ofNat n :: done) items

/-- The character that a one-letter escape stands for. -/
def ofEscape? : Char → Option Char
  | '"' => some '"'
  | '\\' => some '\\'
  | '/' => some '/'
  | 'b' => some '\x08'
  | 'f' => some '\x0c'
  | 'n' => some '\n'
  | 'r' => some '\r'
  | 't' => some '\t'
  | _ => none

/-- The value of a hexadecimal digit in either case. -/
def hexDigit? (c : Char) : Option Nat :=
  if '0' ≤ c ∧ c ≤ '9' then some (c.toNat - 48)
  else if 'a' ≤ c ∧ c ≤ 'f' then some (c.toNat - 87)
  else if 'A' ≤ c ∧ c ≤ 'F' then some (c.toNat - 55)
  else none

/-- The code unit of four hexadecimal digits. -/
def hexUnit? (a b c d : Char) : Option Nat := do
  return (← hexDigit? a) * 4096 + (← hexDigit? b) * 256 + (← hexDigit? c) * 16 + (← hexDigit? d)

/-- The items up to the closing quote, and the text behind it. Control
characters may only stand in a string escaped. -/
def read (done : List StringItem) : List Char → Option (List StringItem × List Char)
  | [] => none
  | '"' :: cs => some (done.reverse, cs)
  | '\\' :: 'u' :: a :: b :: c :: d :: cs =>
    match hexUnit? a b c d with
    | some n => read (.unit n :: done) cs
    | none => none
  | '\\' :: e :: cs =>
    match ofEscape? e with
    | some c => read (.char c :: done) cs
    | none => none
  | c :: cs => if c.toNat < 0x20 || c = '\\' then none else read (.char c :: done) cs

theorem length_of_read {done items : List StringItem} {cs rest : List Char}
    (h : read done cs = some (items, rest)) : rest.length < cs.length := by
  fun_induction read done cs with
  | case1 => cases h
  | case2 done cs =>
    simp only [Option.some.injEq, Prod.mk.injEq] at h
    simp [← h.2]
  | case3 done a b c d cs n hn ih =>
    have := ih h
    simp only [List.length_cons]
    omega
  | case4 => cases h
  | case5 done e cs _ c he ih =>
    have := ih h
    simp only [List.length_cons]
    omega
  | case6 => cases h
  | case7 => cases h
  | case8 done c cs _ _ _ _ ih =>
    have := ih h
    simp only [List.length_cons]
    omega

end StringItem

-- ============================================================ numbers

namespace Numeral

/-- The digits before the point. A zero stands alone. -/
def readWhole : List Char → Option (List Char × List Char)
  | [] => none
  | c :: cs =>
    if c = '0' then some (['0'], cs)
    else if c.isDigit then some (c :: cs.takeWhile Char.isDigit, cs.dropWhile Char.isDigit)
    else none

/-- A run of one or more digits. -/
def readDigits : List Char → Option (List Char × List Char)
  | [] => none
  | c :: cs =>
    if c.isDigit then some (c :: cs.takeWhile Char.isDigit, cs.dropWhile Char.isDigit) else none

/-- A point with digits behind it, or nothing. -/
def readFraction : List Char → Option (Option (List Char) × List Char)
  | '.' :: cs => (readDigits cs).map fun (digits, rest) => (some digits, rest)
  | cs => some (none, cs)

/-- The sign of an exponent: is it negative? -/
def readSign : List Char → Bool × List Char
  | '+' :: cs => (false, cs)
  | '-' :: cs => (true, cs)
  | cs => (false, cs)

/-- An exponent, or nothing. -/
def readExponent : List Char → Option (Option (Bool × List Char) × List Char)
  | [] => some (none, [])
  | c :: cs =>
    if c = 'e' ∨ c = 'E' then
      let (negative, digits) := readSign cs
      (readDigits digits).map fun (digits, rest) => (some (negative, digits), rest)
    else some (none, c :: cs)

/-- A number without its minus sign. -/
def read (negative : Bool) (cs : List Char) : Option (Numeral × List Char) := do
  let (whole, cs) ← readWhole cs
  let (fraction, cs) ← readFraction cs
  let (exponent, cs) ← readExponent cs
  return (⟨negative, whole, fraction, exponent⟩, cs)

private theorem length_dropWhile (cs : List Char) :
    (cs.dropWhile Char.isDigit).length ≤ cs.length :=
  (List.dropWhile_sublist Char.isDigit).length_le

theorem length_of_readWhole {cs digits rest : List Char}
    (h : readWhole cs = some (digits, rest)) : rest.length < cs.length := by
  cases cs with
  | nil => cases h
  | cons c cs =>
    have := length_dropWhile cs
    simp only [readWhole] at h
    split at h
    · simp only [Option.some.injEq, Prod.mk.injEq] at h
      simp [← h.2]
    · split at h
      · simp only [Option.some.injEq, Prod.mk.injEq] at h
        simp only [← h.2, List.length_cons]
        omega
      · cases h

theorem length_of_readDigits {cs digits rest : List Char}
    (h : readDigits cs = some (digits, rest)) : rest.length < cs.length := by
  cases cs with
  | nil => cases h
  | cons c cs =>
    have := length_dropWhile cs
    simp only [readDigits] at h
    split at h
    · simp only [Option.some.injEq, Prod.mk.injEq] at h
      simp only [← h.2, List.length_cons]
      omega
    · cases h

theorem length_of_readFraction {cs rest : List Char} {fraction : Option (List Char)}
    (h : readFraction cs = some (fraction, rest)) : rest.length ≤ cs.length := by
  unfold readFraction at h
  split at h
  · obtain ⟨⟨digits, r⟩, hd, hr⟩ := Option.map_eq_some_iff.mp h
    simp only [Prod.mk.injEq] at hr
    have := length_of_readDigits hd
    simp only [← hr.2, List.length_cons]
    omega
  · simp only [Option.some.injEq, Prod.mk.injEq] at h
    simp [← h.2]

theorem length_readSign (cs : List Char) : (readSign cs).2.length ≤ cs.length := by
  unfold readSign
  split <;> simp

theorem length_of_readExponent {cs rest : List Char} {exponent : Option (Bool × List Char)}
    (h : readExponent cs = some (exponent, rest)) : rest.length ≤ cs.length := by
  cases cs with
  | nil =>
    simp only [readExponent, Option.some.injEq, Prod.mk.injEq] at h
    simp [← h.2]
  | cons c cs =>
    simp only [readExponent] at h
    split at h
    · obtain ⟨⟨digits, r⟩, hd, hr⟩ := Option.map_eq_some_iff.mp h
      simp only [Prod.mk.injEq] at hr
      have := length_of_readDigits hd
      have := length_readSign cs
      simp only [← hr.2, List.length_cons]
      omega
    · simp only [Option.some.injEq, Prod.mk.injEq] at h
      simp [← h.2]

theorem length_of_read {negative : Bool} {cs rest : List Char} {n : Numeral}
    (h : read negative cs = some (n, rest)) : rest.length < cs.length := by
  simp only [read, Option.bind_eq_bind, Option.bind_eq_some_iff] at h
  obtain ⟨⟨_, r₁⟩, h₁, ⟨_, r₂⟩, h₂, ⟨_, r₃⟩, h₃, h⟩ := h
  simp only [Option.pure_def, Option.some.injEq, Prod.mk.injEq] at h
  have e₁ : r₁.length < cs.length := length_of_readWhole h₁
  have e₂ : r₂.length ≤ r₁.length := length_of_readFraction h₂
  have e₃ : r₃.length ≤ r₂.length := length_of_readExponent h₃
  simp only [← h.2]
  omega

end Numeral

-- ============================================================ texts

namespace Symbol

/-- White space of JSON. -/
def isSpace (c : Char) : Bool :=
  c = ' ' || c = '\t' || c = '\n' || c = '\r'

/-- A word that has been begun: the symbol, if the rest of the word follows. -/
def ofWord (word : List Char) (symbol : Symbol) (cs : List Char) : Option (Symbol × List Char) :=
  if word.isPrefixOf cs then some (symbol, cs.drop word.length) else none

/-- The symbol of a part that has been read, and the text behind it. -/
def ofPart {α : Type} (symbol : α → Symbol) (part : Option (α × List Char)) :
    Option (Symbol × List Char) :=
  part.map fun p => (symbol p.1, p.2)

/-- The symbol that starts with `c`, and the text behind it. -/
def read (c : Char) (cs : List Char) : Option (Symbol × List Char) :=
  if c = '[' then some (openArray, cs)
  else if c = ']' then some (closeArray, cs)
  else if c = '{' then some (openObject, cs)
  else if c = '}' then some (closeObject, cs)
  else if c = ',' then some (comma, cs)
  else if c = ':' then some (colon, cs)
  else if c = '"' then
    ofPart (fun items => string (StringItem.spell [] items)) (StringItem.read [] cs)
  else if c = 'n' then ofWord ['u', 'l', 'l'] null cs
  else if c = 't' then ofWord ['r', 'u', 'e'] (bool true) cs
  else if c = 'f' then ofWord ['a', 'l', 's', 'e'] (bool false) cs
  else if c = '-' then ofPart number (Numeral.read true cs)
  else ofPart number (Numeral.read false (c :: cs))

theorem length_of_ofWord {word cs rest : List Char} {s t : Symbol}
    (h : ofWord word s cs = some (t, rest)) : rest.length ≤ cs.length := by
  unfold ofWord at h
  split at h
  · simp only [Option.some.injEq, Prod.mk.injEq] at h
    simp [← h.2]
  · cases h

private theorem length_of_some {cs rest : List Char} {s t : Symbol}
    (h : some (t, cs) = some (s, rest)) : rest.length < cs.length + 1 := by
  simp only [Option.some.injEq, Prod.mk.injEq] at h
  simp [← h.2]

private theorem length_of_ofPart {α : Type} {f : α → Symbol} {o : Option (α × List Char)}
    {rest : List Char} {s : Symbol} {n : Nat}
    (ho : ∀ a r, o = some (a, r) → r.length < n)
    (h : ofPart f o = some (s, rest)) : rest.length < n := by
  obtain ⟨⟨a, r⟩, hr, he⟩ := Option.map_eq_some_iff.mp h
  simp only [Prod.mk.injEq] at he
  exact he.2 ▸ ho a r hr

private theorem of_ite {α : Type} {p : Prop} [Decidable p] {a b x : α} {q : Prop}
    (h : (if p then a else b) = x) (ha : a = x → q) (hb : b = x → q) : q := by
  by_cases hp : p
  · exact ha (by rwa [if_pos hp] at h)
  · exact hb (by rwa [if_neg hp] at h)

/-- The text behind a symbol is shorter. -/
theorem length_of_read {c : Char} {cs rest : List Char} {s : Symbol}
    (h : read c cs = some (s, rest)) : rest.length < (c :: cs).length := by
  rw [List.length_cons]
  unfold read at h
  refine of_ite h length_of_some fun h => ?_
  refine of_ite h length_of_some fun h => ?_
  refine of_ite h length_of_some fun h => ?_
  refine of_ite h length_of_some fun h => ?_
  refine of_ite h length_of_some fun h => ?_
  refine of_ite h length_of_some fun h => ?_
  refine of_ite h (length_of_ofPart fun _ _ hr => ?_) fun h => ?_
  · exact Nat.lt_succ_of_lt (StringItem.length_of_read hr)
  refine of_ite h (fun h => Nat.lt_succ_of_le (length_of_ofWord h)) fun h => ?_
  refine of_ite h (fun h => Nat.lt_succ_of_le (length_of_ofWord h)) fun h => ?_
  refine of_ite h (fun h => Nat.lt_succ_of_le (length_of_ofWord h)) fun h => ?_
  refine of_ite h (length_of_ofPart fun _ _ hr => ?_) (length_of_ofPart fun _ _ hr => ?_)
  · exact Nat.lt_succ_of_lt (Numeral.length_of_read hr)
  · exact Numeral.length_of_read hr

/-- The symbols of a text. Those read so far are kept in `done`, last one
first. -/
def readAll (done : List Symbol) : List Char → Option (List Symbol)
  | [] => some done.reverse
  | c :: cs =>
    if isSpace c then readAll done cs
    else
      match h : read c cs with
      | some (s, rest) =>
        have := length_of_read h
        readAll (s :: done) rest
      | none => none
  termination_by cs => cs.length
  decreasing_by
    · exact Nat.lt_succ_self _
    · exact this

end Symbol

end EventDocs.Json
