import EventDocs.Json.Printer
import EventDocs.Json.Record
import Mathlib.Data.List.Nodup

/-
What is printed over lines reads back as the tree that it was printed from.

Reading has two layers, and so has the argument. The symbols of a text are read first: a
string gives one symbol whatever it holds, since each character is printed as something
that stands for it alone; an integer gives one symbol if nothing behind it could prolong
it; white space gives none. Then the machine turns the symbols into a tree, and for the
symbols of a tree it ends with that tree delivered to whoever waited for it. Both layers
are stated with an arbitrary text or list of symbols behind, so that they follow the
nesting of the value (`readAll_pretty`, `run_symbols`).

The trees of a value are given by a relation (`Value.WrittenAs`): an integer is written by
its digits, a string by its text. Numbers of binary64 are left out.
-/

namespace EventDocs.Json

-- ============================================================ statement vocabulary

/-- An integer as it is written: a minus sign if it is negative, and its digits. -/
def Numeral.ofInt (n : Int) : Numeral :=
  ⟨decide (n < 0), NumberLayout.natural n.natAbs, none, none⟩

namespace Value

mutual

/-- The tree as which a value is written. -/
inductive WrittenAs : Value → Tree → Prop
  | null : WrittenAs .null .null
  | bool (b : Bool) : WrittenAs (.bool b) (.bool b)
  | integer (n : Int) : WrittenAs (.number (.integer n)) (.number (.ofInt n))
  | string (s : String) : WrittenAs (.string s) (.string (some s))
  | array {vs : List Value} {ts : List Tree} (h : ItemsWrittenAs vs ts) :
    WrittenAs (.array vs) (.array ts)
  | object {ms : List (String × Value)} {ts : List (Spelling × Tree)}
    (h : MembersWrittenAs ms ts) : WrittenAs (.object ms) (.object ts)

/-- The trees as which some items are written. -/
inductive ItemsWrittenAs : List Value → List Tree → Prop
  | nil : ItemsWrittenAs [] []
  | cons {v : Value} {t : Tree} {vs : List Value} {ts : List Tree} (head : WrittenAs v t)
    (tail : ItemsWrittenAs vs ts) : ItemsWrittenAs (v :: vs) (t :: ts)

/-- The trees as which some members are written. -/
inductive MembersWrittenAs : List (String × Value) → List (Spelling × Tree) → Prop
  | nil : MembersWrittenAs [] []
  | cons (name : String) {v : Value} {t : Tree} {ms : List (String × Value)}
    {ts : List (Spelling × Tree)} (head : WrittenAs v t) (tail : MembersWrittenAs ms ts) :
    MembersWrittenAs ((name, v) :: ms) ((some name, t) :: ts)

end

end Value

-- ============================================================ strings

namespace StringItem

/-- The characters with an escape of one letter. -/
def lettered : List Char := ['"', '\\', '\x08', '\x0c', '\n', '\r', '\t']

/-- What a character is read as once it was printed: itself, or a code unit if it had to
be escaped by number. -/
def printed (c : Char) : StringItem :=
  if c.toNat < 0x20 ∧ c ∉ lettered then .unit c.toNat else .char c

theorem hexUnit?_control :
    ∀ n < 0x20, hexUnit? '0' '0' (n / 16).digitChar (n % 16).digitChar = some n := by
  decide

theorem read_printChar (done : List StringItem) (c : Char) (cs : List Char) :
    read done (printChar c ++ cs) = read (printed c :: done) cs := by
  by_cases hc : c ∈ lettered
  · simp only [lettered, List.mem_cons, List.not_mem_nil, or_false] at hc
    rcases hc with rfl | rfl | rfl | rfl | rfl | rfl | rfl <;> rfl
  -- the printer asks for each of these characters before it asks whether it is a control
  have hne := hc
  simp only [lettered, List.mem_cons, List.not_mem_nil, or_false, not_or] at hne
  obtain ⟨hquote, hslash, hb, hf, hn, hr, ht⟩ := hne
  by_cases hcontrol : c.toNat < 0x20
  · have hprint : printChar c
        = ['\\', 'u', '0', '0', (c.toNat / 16).digitChar, (c.toNat % 16).digitChar] := by
      simp only [printChar, hquote, hslash, hb, hf, hn, hr, ht, hcontrol, if_true, if_false]
    have hitem : printed c = .unit c.toNat := if_pos ⟨hcontrol, hc⟩
    rw [hprint, hitem]
    simp only [List.cons_append, List.nil_append, read, hexUnit?_control _ hcontrol]
  · have hprint : printChar c = [c] := by
      simp only [printChar, hquote, hslash, hb, hf, hn, hr, ht, hcontrol, if_false]
    have hitem : printed c = .char c := if_neg fun h => hcontrol h.1
    rw [hprint, hitem, List.singleton_append]
    simp [read, hslash, hcontrol]

theorem read_flatMap_printChar (done : List StringItem) (s cs : List Char) :
    read done (s.flatMap printChar ++ cs) = read ((s.map printed).reverse ++ done) cs := by
  induction s generalizing done with
  | nil => rfl
  | cons c s ih =>
    rw [List.flatMap_cons, List.append_assoc, read_printChar, ih]
    simp

theorem spell_unit {n : Nat} (hn : n < 0xD800) (done : List Char) (items : List StringItem) :
    spell done (.unit n :: items) = spell (.ofNat n :: done) items := by
  have hhigh : isHighSurrogate n = false := by
    simp only [isHighSurrogate, Bool.and_eq_false_iff, decide_eq_false_iff_not]
    omega
  have hlow : isLowSurrogate n = false := by
    simp only [isLowSurrogate, Bool.and_eq_false_iff, decide_eq_false_iff_not]
    omega
  -- the next item decides which rule of `spell` applies, not what comes of it
  cases items with
  | nil => simp [spell, hhigh, hlow]
  | cons item items =>
    cases item with
    | char c => simp [spell, hhigh, hlow]
    | unit low => simp [spell, hhigh, hlow]

theorem spell_printed (done s : List Char) :
    spell done (s.map printed) = some (.ofList (done.reverse ++ s)) := by
  induction s generalizing done with
  | nil => simp [spell]
  | cons c s ih =>
    have hstep : spell done (printed c :: s.map printed) = spell (c :: done) (s.map printed) := by
      unfold printed
      split
      next h => rw [spell_unit (by omega), Char.ofNat_toNat]
      next => rfl
    rw [List.map_cons, hstep, ih]
    simp

end StringItem

namespace Symbol

theorem readAll_of_read {c : Char} {cs rest : List Char} {s : Symbol} (done : List Symbol)
    (hspace : isSpace c = false) (h : read c cs = some (s, rest)) :
    readAll done (c :: cs) = readAll (s :: done) rest := by
  rw [readAll, if_neg (by simp [hspace])]
  split
  next t r hread =>
    rw [h] at hread
    cases hread
    rfl
  next hread =>
    rw [h] at hread
    cases hread

theorem readAll_printString (done : List Symbol) (s : String) (cs : List Char) :
    readAll done (printString s ++ cs) = readAll (.string (some s) :: done) cs := by
  have hitems : StringItem.read [] (s.toList.flatMap printChar ++ '"' :: cs)
      = some (s.toList.map StringItem.printed, cs) := by
    rw [StringItem.read_flatMap_printChar]
    simp [StringItem.read]
  have hread : read '"' (s.toList.flatMap printChar ++ '"' :: cs) = some (.string (some s), cs) := by
    simp [read, ofPart, hitems, StringItem.spell_printed]
  have hstep := readAll_of_read done rfl hread
  simpa [printString] using hstep

end Symbol

-- ============================================================ numbers

/-- Nothing at the front could prolong a number. -/
def EndsNumber (cs : List Char) : Prop :=
  ∀ c ∈ cs.head?, c.isDigit = false ∧ c ≠ '.' ∧ c ≠ 'e' ∧ c ≠ 'E'

@[simp] theorem endsNumber_nil : EndsNumber [] := by
  intro c hc
  cases hc

@[simp] theorem endsNumber_cons {c : Char} {cs : List Char} :
    EndsNumber (c :: cs) ↔ c.isDigit = false ∧ c ≠ '.' ∧ c ≠ 'e' ∧ c ≠ 'E' := by
  simp [EndsNumber]

theorem isDigit_of_mem_natural {n : Nat} {c : Char} (hc : c ∈ NumberLayout.natural n) :
    c.isDigit = true :=
  Nat.isDigit_of_mem_toDigits (b := 10) (by decide) (by decide) hc

/-- Only zero is written with a zero in front. -/
theorem exists_natural_eq_cons {n : Nat} (hn : 0 < n) :
    ∃ c ds, NumberLayout.natural n = c :: ds ∧ c ≠ '0' := by
  unfold NumberLayout.natural
  induction n using Nat.strongRecOn with
  | ind n ih =>
    by_cases hlt : n < 10
    · have hdigit : ∀ m < 10, 0 < m → m.digitChar ≠ '0' := by decide
      exact ⟨n.digitChar, [], Nat.toDigits_of_lt_base hlt, hdigit n hlt hn⟩
    · obtain ⟨c, ds, hds, hc⟩ := ih (n / 10) (by omega) (by omega)
      refine ⟨c, ds ++ [(n % 10).digitChar], ?_, hc⟩
      rw [Nat.toDigits_of_base_le (by decide) (by omega), hds, List.cons_append]

theorem digitsValue_natural (n : Nat) : digitsValue (NumberLayout.natural n) = n := by
  have hfold : (fun m c => m * 10 + digitValue c) = fun m c => 10 * m + (c.toNat - '0'.toNat) := by
    funext m c
    rw [Nat.mul_comm m 10]
    rfl
  rw [digitsValue, hfold]
  exact Nat.ofDigitChars_ten_toDigits

namespace Numeral

theorem readWhole_natural (n : Nat) {rest : List Char} (hrest : EndsNumber rest) :
    readWhole (NumberLayout.natural n ++ rest) = some (NumberLayout.natural n, rest) := by
  rcases Nat.eq_zero_or_pos n with rfl | hn
  · rfl
  obtain ⟨c, ds, hds, hc⟩ := exists_natural_eq_cons hn
  have hdigits : ∀ d ∈ c :: ds, d.isDigit = true := fun d hd => isDigit_of_mem_natural (hds ▸ hd)
  obtain ⟨hfirst, hmore⟩ := List.forall_mem_cons.mp hdigits
  have htake : (ds ++ rest).takeWhile Char.isDigit = ds := by
    rw [List.takeWhile_append_of_pos hmore]
    cases rest with
    | nil => simp
    | cons d rest => simp [(endsNumber_cons.mp hrest).1]
  have hdrop : (ds ++ rest).dropWhile Char.isDigit = rest := by
    rw [List.dropWhile_append_of_pos hmore]
    cases rest with
    | nil => rfl
    | cons d rest => simp [(endsNumber_cons.mp hrest).1]
  rw [hds]
  simp [readWhole, hc, hfirst, htake, hdrop]

theorem readFraction_of_endsNumber {rest : List Char} (hrest : EndsNumber rest) :
    readFraction rest = some (none, rest) := by
  cases rest with
  | nil => rfl
  | cons c rest => simp [readFraction, (endsNumber_cons.mp hrest).2.1]

theorem readExponent_of_endsNumber {rest : List Char} (hrest : EndsNumber rest) :
    readExponent rest = some (none, rest) := by
  cases rest with
  | nil => rfl
  | cons c rest => simp [readExponent, (endsNumber_cons.mp hrest).2.2]

theorem read_natural (negative : Bool) (n : Nat) {rest : List Char} (hrest : EndsNumber rest) :
    read negative (NumberLayout.natural n ++ rest)
      = some (⟨negative, NumberLayout.natural n, none, none⟩, rest) := by
  simp [read, readWhole_natural n hrest, readFraction_of_endsNumber hrest,
    readExponent_of_endsNumber hrest]

end Numeral

namespace Symbol

theorem ne_of_isDigit {c : Char} (hc : c.isDigit = true) (d : Char) (hd : d.isDigit = false) :
    c ≠ d := by
  rintro rfl
  rw [hc] at hd
  cases hd

theorem isSpace_digit {c : Char} (hc : c.isDigit = true) : isSpace c = false := by
  simp [isSpace, ne_of_isDigit hc]

theorem read_digit {c : Char} (hc : c.isDigit = true) (cs : List Char) :
    read c cs = ofPart number (Numeral.read false (c :: cs)) := by
  simp [read, ne_of_isDigit hc]

theorem readAll_integer (done : List Symbol) (n : Int) {rest : List Char}
    (hrest : EndsNumber rest) :
    readAll done (NumberLayout.integer n ++ rest) = readAll (.number (.ofInt n) :: done) rest := by
  cases n with
  | ofNat n =>
    have hpart := Numeral.read_natural false n hrest
    have hne : NumberLayout.natural n ≠ [] := Nat.toDigits_ne_nil
    obtain ⟨c, ds, hds⟩ := List.exists_cons_of_ne_nil hne
    have hc : c.isDigit = true := isDigit_of_mem_natural (hds ▸ List.mem_cons_self)
    have hread : read c (ds ++ rest) = some (.number (.ofInt n), rest) := by
      rw [read_digit hc, ← List.cons_append, ← hds, hpart]
      simp [ofPart, Numeral.ofInt]
    have hcs : NumberLayout.integer (.ofNat n) ++ rest = c :: (ds ++ rest) := by
      rw [← List.cons_append, ← hds]
      rfl
    rw [hcs]
    exact readAll_of_read done (isSpace_digit hc) hread
  | negSucc n =>
    have hread : read '-' (NumberLayout.natural (n + 1) ++ rest)
        = some (.number (.ofInt (.negSucc n)), rest) := by
      simp [read, Numeral.read_natural true (n + 1) hrest, ofPart, Numeral.ofInt]
    exact readAll_of_read done rfl hread

end Symbol

-- ============================================================ from symbols to trees

namespace Tree

mutual

/-- The symbols of a tree. -/
def symbols : Tree → List Symbol
  | null => [.null]
  | bool b => [.bool b]
  | number n => [.number n]
  | string s => [.string s]
  | array items => .openArray :: (itemSymbols items ++ [.closeArray])
  | object members => .openObject :: (memberSymbols members ++ [.closeObject])

/-- The symbols of items, with commas between them. -/
def itemSymbols : List Tree → List Symbol
  | [] => []
  | t :: ts => t.symbols ++ furtherItems ts

/-- The symbols of the items behind the first. -/
def furtherItems : List Tree → List Symbol
  | [] => []
  | t :: ts => .comma :: (t.symbols ++ furtherItems ts)

/-- The symbols of members, with commas between them. -/
def memberSymbols : List (Spelling × Tree) → List Symbol
  | [] => []
  | (name, t) :: ms => .string name :: .colon :: (t.symbols ++ furtherMembers ms)

/-- The symbols of the members behind the first. -/
def furtherMembers : List (Spelling × Tree) → List Symbol
  | [] => []
  | (name, t) :: ms => .comma :: .string name :: .colon :: (t.symbols ++ furtherMembers ms)

end

/-- A tree starts with a symbol that does not close an array. -/
theorem exists_symbols_eq_cons (t : Tree) : ∃ s ss, t.symbols = s :: ss ∧ s ≠ .closeArray := by
  cases t <;> simp [symbols]

end Tree

namespace State

open EventDocs.Json.Tree

theorem run_cons {s s' : State} {x : Symbol} (h : s.step x = some s') (xs : List Symbol) :
    s.run (x :: xs) = s'.run xs := by
  rw [run, h]

/-- The first item of an array is read as any other. -/
theorem run_firstItem (t : Tree) (stack : List Frame) (rest : List Symbol) :
    (firstItem stack).run (t.symbols ++ rest)
      = (value (.item [] :: stack)).run (t.symbols ++ rest) := by
  obtain ⟨s, ss, hcons, hs⟩ := t.exists_symbols_eq_cons
  have hstep : (firstItem stack).step s = (value (.item [] :: stack)).step s := by
    cases s with
    | closeArray => exact absurd rfl hs
    | _ => rfl
  rw [hcons, List.cons_append, run, run, hstep]

mutual

/-- The symbols of a tree bring the machine to where the tree is delivered. -/
theorem run_symbols (t : Tree) (stack : List Frame) (rest : List Symbol) :
    (value stack).run (t.symbols ++ rest) = (deliver t stack).run rest := by
  match t with
  | .null | .bool _ | .number _ | .string _ | .array [] | .object [] => rfl
  | .array (t :: ts) =>
    simp only [symbols, itemSymbols, List.cons_append, List.append_assoc]
    rw [run_cons rfl, run_firstItem, run_symbols t, deliver]
    exact run_furtherItems [t] ts stack rest
  | .object ((name, t) :: ms) =>
    simp only [symbols, memberSymbols, List.cons_append, List.append_assoc]
    rw [run_cons rfl, run_cons rfl, run_cons rfl, run_symbols t, deliver]
    exact run_furtherMembers [(name, t)] ms stack rest

theorem run_furtherItems (before ts : List Tree) (stack : List Frame) (rest : List Symbol) :
    (nextItem before stack).run (furtherItems ts ++ .closeArray :: rest)
      = (deliver (.array (before.reverse ++ ts)) stack).run rest := by
  match ts with
  | [] => rw [furtherItems, List.nil_append, run_cons rfl, List.append_nil]
  | t :: ts =>
    have hmore := run_furtherItems (t :: before) ts stack rest
    rw [List.reverse_cons, List.append_assoc] at hmore
    rw [furtherItems, List.cons_append, run_cons rfl, List.append_assoc, run_symbols t, deliver]
    exact hmore

theorem run_furtherMembers (before ms : List (Spelling × Tree)) (stack : List Frame)
    (rest : List Symbol) :
    (nextMember before stack).run (furtherMembers ms ++ .closeObject :: rest)
      = (deliver (.object (before.reverse ++ ms)) stack).run rest := by
  match ms with
  | [] => rw [furtherMembers, List.nil_append, run_cons rfl, List.append_nil]
  | (name, t) :: ms =>
    have hmore := run_furtherMembers ((name, t) :: before) ms stack rest
    rw [List.reverse_cons, List.append_assoc] at hmore
    simp only [furtherMembers, List.cons_append, List.append_assoc]
    rw [run_cons rfl, run_cons rfl, run_cons rfl, run_symbols t, deliver]
    exact hmore

end

end State

-- ============================================================ from texts to symbols

namespace Symbol

open Value

@[simp] theorem readAll_openArray (done : List Symbol) (cs : List Char) :
    readAll done ('[' :: cs) = readAll (.openArray :: done) cs :=
  readAll_of_read done rfl rfl

@[simp] theorem readAll_closeArray (done : List Symbol) (cs : List Char) :
    readAll done (']' :: cs) = readAll (.closeArray :: done) cs :=
  readAll_of_read done rfl rfl

@[simp] theorem readAll_openObject (done : List Symbol) (cs : List Char) :
    readAll done ('{' :: cs) = readAll (.openObject :: done) cs :=
  readAll_of_read done rfl rfl

@[simp] theorem readAll_closeObject (done : List Symbol) (cs : List Char) :
    readAll done ('}' :: cs) = readAll (.closeObject :: done) cs :=
  readAll_of_read done rfl rfl

@[simp] theorem readAll_comma (done : List Symbol) (cs : List Char) :
    readAll done (',' :: cs) = readAll (.comma :: done) cs :=
  readAll_of_read done rfl rfl

@[simp] theorem readAll_colon (done : List Symbol) (cs : List Char) :
    readAll done (':' :: cs) = readAll (.colon :: done) cs :=
  readAll_of_read done rfl rfl

@[simp] theorem readAll_space (done : List Symbol) (cs : List Char) :
    readAll done (' ' :: cs) = readAll done cs := by
  rw [readAll]
  exact if_pos rfl

@[simp] theorem readAll_newLine (done : List Symbol) (level : Nat) (cs : List Char) :
    readAll done (newLine level ++ cs) = readAll done cs := by
  have hspaces (n : Nat) : readAll done (List.replicate n ' ' ++ cs) = readAll done cs := by
    induction n with
    | zero => rfl
    | succ n ih => rw [List.replicate_succ, List.cons_append, readAll_space, ih]
  have hbreak : readAll done (newLine level ++ cs)
      = readAll done (List.replicate (2 * level) ' ' ++ cs) := by
    rw [newLine, List.cons_append, readAll]
    exact if_pos rfl
  rw [hbreak, hspaces]

theorem readAll_printBool (done : List Symbol) (b : Bool) (cs : List Char) :
    readAll done (printBool b ++ cs) = readAll (.bool b :: done) cs := by
  cases b with
  | false => exact readAll_of_read done rfl rfl
  | true => exact readAll_of_read done rfl rfl

theorem endsNumber_newLine (level : Nat) (cs : List Char) : EndsNumber (newLine level ++ cs) := by
  simp [newLine]

-- What stands behind a part matters only for a number, and there it is white space, a
-- comma or the text behind the whole.
mutual

theorem readAll_pretty (v : Value) {t : Tree} (h : WrittenAs v t) (level : Nat)
    (done : List Symbol) (rest : List Char) (hrest : EndsNumber rest) :
    readAll done (v.pretty level ++ rest) = readAll (t.symbols.reverse ++ done) rest := by
  match v, h with
  | .null, .null => exact readAll_of_read done rfl rfl
  | .bool b, .bool _ => exact readAll_printBool done b rest
  | .number _, .integer n => exact readAll_integer done n hrest
  | .string s, .string _ => exact readAll_printString done s rest
  | .array [], .array .nil => simp [pretty, Tree.symbols, Tree.itemSymbols]
  | .array (v :: vs), .array hs =>
    have hitems := readAll_prettyItems (v :: vs) hs (level + 1) (.openArray :: done)
      (newLine level ++ ']' :: rest) (endsNumber_newLine level _)
    simp [pretty, Tree.symbols, hitems]
  | .object [], .object .nil => simp [pretty, Tree.symbols, Tree.memberSymbols]
  | .object (m :: ms), .object hs =>
    have hmembers := readAll_prettyMembers (m :: ms) hs (level + 1) (.openObject :: done)
      (newLine level ++ '}' :: rest) (endsNumber_newLine level _)
    simp [pretty, Tree.symbols, hmembers]

theorem readAll_prettyItems (vs : List Value) {ts : List Tree} (h : ItemsWrittenAs vs ts)
    (level : Nat) (done : List Symbol) (rest : List Char) (hrest : EndsNumber rest) :
    readAll done (prettyItems level vs ++ rest)
      = readAll ((Tree.itemSymbols ts).reverse ++ done) rest := by
  match vs, ts, h with
  | [], _, .nil => rfl
  | [v], _, .cons hv .nil =>
    have hfirst := readAll_pretty v hv level done rest hrest
    simp [prettyItems, Tree.itemSymbols, Tree.furtherItems, hfirst]
  | v :: v' :: vs, t :: _, .cons hv hvs@(.cons _ _) =>
    have hfirst := readAll_pretty v hv level done (',' :: (prettyItems level (v' :: vs) ++ rest))
      (by simp)
    have hmore := readAll_prettyItems (v' :: vs) hvs level (.comma :: (t.symbols.reverse ++ done))
      rest hrest
    simp [prettyItems, Tree.itemSymbols, Tree.furtherItems, hfirst, hmore]

theorem readAll_prettyMembers (ms : List (String × Value)) {ts : List (Spelling × Tree)}
    (h : MembersWrittenAs ms ts) (level : Nat) (done : List Symbol) (rest : List Char)
    (hrest : EndsNumber rest) :
    readAll done (prettyMembers level ms ++ rest)
      = readAll ((Tree.memberSymbols ts).reverse ++ done) rest := by
  match ms, ts, h with
  | [], _, .nil => rfl
  | [(name, v)], _, .cons _ hv .nil =>
    have hfirst := readAll_pretty v hv level (.colon :: .string (some name) :: done) rest hrest
    simp [prettyMembers, Tree.memberSymbols, Tree.furtherMembers, readAll_printString, hfirst]
  | (name, v) :: m :: ms, (_, t) :: _, .cons _ hv hms@(.cons _ _ _) =>
    have hfirst := readAll_pretty v hv level (.colon :: .string (some name) :: done)
      (',' :: (prettyMembers level (m :: ms) ++ rest)) (by simp)
    have hmore := readAll_prettyMembers (m :: ms) hms level
      (.comma :: (t.symbols.reverse ++ .colon :: .string (some name) :: done)) rest hrest
    simp [prettyMembers, Tree.memberSymbols, Tree.furtherMembers, readAll_printString, hfirst,
      hmore]

end

end Symbol

-- ============================================================ the round trip

/-- A text with the symbols of a tree reads as the tree. -/
theorem Tree.read?_of_symbols {text : String} {t : Tree}
    (h : Symbol.readAll [] text.toList = some t.symbols) : Tree.read? text = some t := by
  have hstate : (State.value []).run t.symbols = some (.finished t) := by
    have hrun := State.run_symbols t [] []
    simpa [State.deliver, State.run] using hrun
  simp [Tree.read?, h, hstate, State.result?]

/-- The text of a value over lines reads back as the tree of the value. -/
theorem Tree.read?_toPretty {v : Value} {t : Tree} (h : v.WrittenAs t) :
    Tree.read? v.toPretty = some t := by
  have hall := Symbol.readAll_pretty v h 0 [] [] endsNumber_nil
  apply Tree.read?_of_symbols
  simpa [Value.toPretty, Symbol.readAll] using hall

/-- So does the text with a line break behind it. -/
theorem Tree.read?_toPretty_line {v : Value} {t : Tree} (h : v.WrittenAs t) :
    Tree.read? (v.toPretty ++ "\n") = some t := by
  have hall := Symbol.readAll_pretty v h 0 [] (Value.newLine 0) (by simp [Value.newLine])
  have hbreak := Symbol.readAll_newLine t.symbols.reverse 0 []
  apply Tree.read?_of_symbols
  rw [List.append_nil] at hall hbreak
  rw [hbreak] at hall
  simpa [Value.toPretty, Value.newLine, Symbol.readAll] using hall

-- ============================================================ readers

/-- A value is written as a tree from which a reader gets `a`. -/
def Value.ReadsAs {α : Type} (v : Value) (read? : Tree → Option α) (a : α) : Prop :=
  ∃ t, v.WrittenAs t ∧ read? t = some a

namespace Tree

theorem named?_of_writtenAs {ms : List (String × Value)} {ts : List (Spelling × Tree)}
    (h : Value.MembersWrittenAs ms ts) :
    ∃ fields, named? ts = some fields ∧ fields.map Prod.fst = ms.map Prod.fst
      ∧ fields.map Prod.snd = ts.map Prod.snd := by
  induction ms generalizing ts with
  | nil =>
    cases h
    exact ⟨[], rfl, rfl, rfl⟩
  | cons m ms ih =>
    cases h with
    | @cons name v t _ ts hv hms =>
      obtain ⟨fields, hnamed, hnames, htrees⟩ := ih hms
      refine ⟨(name, t) :: fields, ?_, ?_, ?_⟩
      · simp [named?, hnamed]
      · simp [hnames]
      · simp [htrees]

theorem isUnique_of_nodup {fields : List (String × Tree)} (h : (fields.map Prod.fst).Nodup)
    (name : String) : isUnique name fields = true := by
  have hcount := List.nodup_iff_count_le_one.mp h name
  rw [List.count, List.countP_map, List.countP_eq_length_filter] at hcount
  simpa [isUnique, Function.comp_def, beq_eq_decide] using hcount

theorem map_lookup_of_nodup {fields : List (String × Tree)} (h : (fields.map Prod.fst).Nodup) :
    (fields.map Prod.fst).map (fun n => fields.lookup n) = (fields.map Prod.snd).map some := by
  induction fields with
  | nil => rfl
  | cons f fields ih =>
    obtain ⟨name, t⟩ := f
    obtain ⟨hnew, hnodup⟩ := List.nodup_cons.mp h
    have htail : (fields.map Prod.fst).map (fun n => ((name, t) :: fields).lookup n)
        = (fields.map Prod.fst).map (fun n => fields.lookup n) := by
      refine List.map_congr_left fun n hn => ?_
      have hne : (n == name) = false := beq_false_of_ne fun h => hnew (h ▸ hn)
      rw [List.lookup_cons, hne]
    rw [List.map_cons, List.map_cons, htail, ih hnodup, List.lookup_cons_self]
    rfl

/-- A record that was written with its fields in the declared order is read field by
field. -/
theorem fields?_of_writtenAs {ms : List (String × Value)} {ts : List (Spelling × Tree)}
    (h : Value.MembersWrittenAs ms ts) (hnodup : (ms.map Prod.fst).Nodup) :
    fields? (ms.map Prod.fst) (.object ts) = some (ts.map fun m => some m.2) := by
  obtain ⟨fields, hnamed, hnames, htrees⟩ := named?_of_writtenAs h
  rw [← hnames] at hnodup ⊢
  have hunique : (fields.map Prod.fst).all (isUnique · fields) = true :=
    List.all_eq_true.mpr fun name _ => isUnique_of_nodup hnodup name
  simp only [fields?, hnamed, Option.bind_eq_bind, Option.bind_some, hunique, if_true]
  rw [map_lookup_of_nodup hnodup, htrees, List.map_map]
  rfl

end Tree

namespace Value.ReadsAs

open EventDocs.Json.Tree

theorem text (s : String) : (Value.string s).ReadsAs text? s :=
  ⟨_, .string s, rfl⟩

theorem natural {n : Nat} (hn : n ≤ maxUnsigned) :
    (Value.number (.integer n)).ReadsAs natural? n := by
  refine ⟨_, .integer n, ?_⟩
  have hsign : decide ((n : Int) < 0) = false := by simp
  rw [Numeral.ofInt, hsign, natural?, Int.natAbs_natCast, digitsValue_natural, if_pos hn]

theorem choice {α : Type} {ofName? : String → Option α} {name : String} {a : α}
    (h : ofName? name = some a) : (Value.string name).ReadsAs (choice? ofName?) a :=
  ⟨_, .string name, h⟩

/-- For the reader of a record it is enough to know the fields. -/
theorem record {α : Type} {read? : Tree → Option α} {a : α} {ms : List (String × Value)}
    {ts : List (Spelling × Tree)} (h : MembersWrittenAs ms ts)
    (hnodup : (ms.map Prod.fst).Nodup)
    (hread : ∀ t, fields? (ms.map Prod.fst) t = some (ts.map fun m => some m.2) →
      read? t = some a) : (Value.object ms).ReadsAs read? a :=
  ⟨.object ts, .object h, hread _ (fields?_of_writtenAs h hnodup)⟩

theorem list {α : Type} {read? : Tree → Option α} {write : α → Value} {l : List α}
    (h : ∀ a ∈ l, (write a).ReadsAs read? a) :
    (Value.array (l.map write)).ReadsAs (list? read?) l := by
  have hitems : ∃ ts, ItemsWrittenAs (l.map write) ts ∧ ts.mapM read? = some l := by
    induction l with
    | nil => exact ⟨[], .nil, rfl⟩
    | cons a l ih =>
      obtain ⟨ha, hl⟩ := List.forall_mem_cons.mp h
      obtain ⟨t, ht, hread⟩ := ha
      obtain ⟨ts, hts, hreads⟩ := ih hl
      exact ⟨t :: ts, .cons ht hts, by simp [hread, hreads]⟩
  obtain ⟨ts, hts, hreads⟩ := hitems
  exact ⟨.array ts, .array hts, hreads⟩

end Value.ReadsAs

end EventDocs.Json
