/-
White space as the Unicode property `White_Space` draws it, and the two
readings of a text that rest on it: its words, and the text without the white
space at its ends.

The set is wider than ASCII: a no-break space or an ideographic space parts two
words just as a tab does.
-/

namespace EventDocs.Text

-- ============================================================ the property

/-- The twenty-five characters with the Unicode property `White_Space`. -/
def isWhite (c : Char) : Bool :=
  let n := c.toNat
  (0x09 ≤ n && n ≤ 0x0D) || n == 0x20 || n == 0x85 || n == 0xA0 || n == 0x1680 ||
    (0x2000 ≤ n && n ≤ 0x200A) || n == 0x2028 || n == 0x2029 || n == 0x202F ||
    n == 0x205F || n == 0x3000

-- ============================================================ ends and words

/-- The list without the longest run at its end whose elements all satisfy
`p`. -/
def dropTrailing {α : Type} (p : α → Bool) (xs : List α) : List α :=
  (xs.reverse.dropWhile p).reverse

/-- The text without white space at either end. -/
def trim (cs : List Char) : List Char :=
  dropTrailing isWhite (cs.dropWhile isWhite)

/-- The maximal runs of characters other than white space, in order. -/
def words (cs : List Char) : List (List Char) :=
  (cs.splitOnP isWhite).filter fun w => !w.isEmpty

-- ============================================================ small laws

/-- What remains is a beginning of the list. -/
theorem dropTrailing_isPrefix {α : Type} (p : α → Bool) (xs : List α) :
    dropTrailing p xs <+: xs := by
  have h : xs.reverse.dropWhile p <:+ xs.reverse := List.dropWhile_suffix p
  simpa [dropTrailing] using List.reverse_prefix.mpr h

/-- An element that stays put at the end shields everything before it. -/
theorem dropTrailing_append_of_not {α : Type} (p : α → Bool) (xs : List α) {a : α}
    (h : p a = false) : dropTrailing p (xs ++ [a]) = xs ++ [a] := by
  simp [dropTrailing, h]

end EventDocs.Text
