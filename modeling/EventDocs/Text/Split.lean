/-
Cutting a text at a separator. Each cut gives the text before the separator and
the text after it, or nothing when the separator does not occur, so that
`before ++ separator ++ after` is always the text that was cut.
-/

namespace EventDocs.Text

-- ============================================================ one cut

/-- Cut at the first occurrence of `sep`. -/
def cutOn (sep : List Char) : List Char → Option (List Char × List Char)
  | [] => if sep.isEmpty then some ([], []) else none
  | c :: cs =>
    if sep.isPrefixOf (c :: cs) then some ([], (c :: cs).drop sep.length)
    else (cutOn sep cs).map fun (before, after) => (c :: before, after)

/-- Cut at the last occurrence of `sep`; occurrences may overlap, and the one
that starts furthest to the right counts. -/
def cutOnLast (sep : List Char) : List Char → Option (List Char × List Char)
  | [] => if sep.isEmpty then some ([], []) else none
  | c :: cs =>
    match cutOnLast sep cs with
    | some (before, after) => some (c :: before, after)
    | none =>
      if sep.isPrefixOf (c :: cs) then some ([], (c :: cs).drop sep.length) else none

/-- Does `sep` occur in the text? -/
def occursIn (sep cs : List Char) : Bool :=
  (cutOn sep cs).isSome

-- ============================================================ nothing is lost

/-- A text that starts with `sep` is `sep` and what dropping it leaves. -/
theorem append_drop_of_isPrefixOf {sep cs : List Char} (h : sep.isPrefixOf cs = true) :
    sep ++ cs.drop sep.length = cs := by
  obtain ⟨rest, rfl⟩ := List.isPrefixOf_iff_prefix.mp h
  simp

/-- The first cut loses nothing. -/
theorem append_of_cutOn {sep cs before after : List Char}
    (h : cutOn sep cs = some (before, after)) : before ++ sep ++ after = cs := by
  induction cs generalizing before with
  | nil =>
    simp only [cutOn] at h
    split at h
    · next hs =>
      obtain ⟨rfl, rfl⟩ := by simpa using h
      simpa using hs
    · cases h
  | cons c cs ih =>
    simp only [cutOn] at h
    split at h
    · next hp =>
      obtain ⟨rfl, rfl⟩ := by simpa using h
      exact append_drop_of_isPrefixOf hp
    · obtain ⟨⟨b, a⟩, hb, hab⟩ := Option.map_eq_some_iff.mp h
      obtain ⟨rfl, rfl⟩ := by simpa using hab
      simp [← ih hb]

end EventDocs.Text
