import EventDocs.Text.Blank
import Mathlib.Data.List.TakeWhile

/-
White space at the ends of a text. It belongs to no word, and trimming takes it off and nothing
else, so a text and the text with white space around it have the same words and are trimmed to
the same.
-/

namespace EventDocs.Text

-- ============================================================ words

theorem words_append_cons {w : Char} (hw : isWhite w = true) (xs ys : List Char) :
    words (xs ++ w :: ys) = words xs ++ words ys := by
  unfold words
  rw [List.splitOnP_append_cons xs ys hw, List.filter_append]

theorem words_nil : words [] = [] := rfl

/-- White space in front of a text belongs to no word. -/
theorem words_append_of_white_left {ws : List Char} (hws : ∀ c ∈ ws, isWhite c = true)
    (xs : List Char) : words (ws ++ xs) = words xs := by
  induction ws with
  | nil => rfl
  | cons w ws ih =>
      have hcons := words_append_cons (hws w List.mem_cons_self) [] (ws ++ xs)
      rw [List.nil_append, words_nil, List.nil_append] at hcons
      rw [List.cons_append, hcons, ih fun c hc => hws c (List.mem_cons_of_mem w hc)]

theorem words_append_of_white_right {ws : List Char} (hws : ∀ c ∈ ws, isWhite c = true)
    (xs : List Char) : words (xs ++ ws) = words xs := by
  cases ws with
  | nil => rw [List.append_nil]
  | cons w ws =>
      have hrest := words_append_of_white_left
        (fun c hc => hws c (List.mem_cons_of_mem w hc)) []
      rw [List.append_nil, words_nil] at hrest
      rw [words_append_cons (hws w List.mem_cons_self), hrest, List.append_nil]

-- ============================================================ trimming

/-- Trimming takes white space off both ends. -/
theorem exists_trim (cs : List Char) :
    ∃ front back, cs = front ++ trim cs ++ back ∧ (∀ c ∈ front, isWhite c = true)
      ∧ ∀ c ∈ back, isWhite c = true := by
  refine ⟨cs.takeWhile isWhite, ((cs.dropWhile isWhite).reverse.takeWhile isWhite).reverse,
    ?_, fun c hc => List.mem_takeWhile_imp hc,
    fun c hc => List.mem_takeWhile_imp (List.mem_reverse.mp hc)⟩
  rw [List.append_assoc, trim, dropTrailing, ← List.reverse_append,
    List.takeWhile_append_dropWhile, List.reverse_reverse, List.takeWhile_append_dropWhile]

theorem words_trim (cs : List Char) : words (trim cs) = words cs := by
  obtain ⟨front, back, hcs, hfront, hback⟩ := exists_trim cs
  calc words (trim cs) = words (front ++ trim cs ++ back) := by
        rw [words_append_of_white_right hback, words_append_of_white_left hfront]
    _ = words cs := by rw [← hcs]

theorem mem_of_mem_trim {cs : List Char} {c : Char} (hc : c ∈ trim cs) : c ∈ cs := by
  obtain ⟨front, back, hcs, -, -⟩ := exists_trim cs
  rw [hcs]
  exact List.mem_append_left _ (List.mem_append_right _ hc)

/-- What satisfies `p` and stands behind a list is dropped with its end. -/
theorem dropTrailing_append_of_all {α : Type} {p : α → Bool} {ys : List α}
    (hys : ∀ y ∈ ys, p y = true) (xs : List α) :
    dropTrailing p (xs ++ ys) = dropTrailing p xs := by
  unfold dropTrailing
  rw [List.reverse_append, List.dropWhile_append_of_pos]
  intro y hy
  exact hys y (List.mem_reverse.mp hy)

/-- White space behind a text makes no difference once the text is trimmed. -/
theorem trim_append_of_white {ws : List Char} (hws : ∀ c ∈ ws, isWhite c = true)
    (cs : List Char) : trim (cs ++ ws) = trim cs := by
  unfold trim
  rw [List.dropWhile_append]
  split
  · next hnone =>
    rw [List.isEmpty_iff.mp hnone, List.dropWhile_eq_nil_iff.mpr hws]
  · exact dropTrailing_append_of_all hws _

end EventDocs.Text
