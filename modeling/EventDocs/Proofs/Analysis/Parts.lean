import EventDocs.Proofs.Block.Outcomes
import EventDocs.Proofs.Interim.RoundTrip
import EventDocs.Proofs.Token.Lossless

/-
A batch may be analysed in parts. The interim states of the parts, merged in the order of
the parts, give what the analysis of the whole batch gives, and the whole batch fails if and
only if some part does.

Two things carry this. A stable sort is known by what it keeps: a list in the order of the
levels is determined by its blocks level by level (`eq_of_filter`), so it does not matter
whether the parts were sorted before they were put together. And an interim state gives its
blocks back if their lines and columns fit in 64 bits, which they do for every text that has
fewer characters than that (`Token.fits_of_mem_tokenize`).
-/

namespace EventDocs

-- ============================================================ places in a text

theorem Position.after_le {p : Position} {n : Nat} (hline : p.line ≤ n) (hcolumn : p.column ≤ n)
    (cs : List Char) :
    (p.after cs).line ≤ n + cs.length ∧ (p.after cs).column ≤ n + cs.length := by
  induction cs generalizing p n with
  | nil => exact ⟨hline, hcolumn⟩
  | cons c cs ih =>
      have hstep : (p.step c).line ≤ n + 1 ∧ (p.step c).column ≤ n + 1 := by
        unfold Position.step
        by_cases hc : c = '\n'
        · rw [if_pos hc]
          constructor <;> dsimp only <;> omega
        · rw [if_neg hc]
          constructor <;> dsimp only <;> omega
      have hrest := ih hstep.1 hstep.2
      show ((p.step c).after cs).line ≤ _ ∧ ((p.step c).after cs).column ≤ _
      rw [List.length_cons]
      omega

theorem Cursor.position_next (r : Cursor) :
    r.next.2.position = r.position.after r.next.1.literal.toList := by
  cases h : r.ahead with
  | nil => rw [next_of_done h]; rfl
  | cons c cs =>
      unfold next
      simp only [h, Token.ofLexeme, String.toList_ofList]

/-- A token stands before the end of what is ahead. -/
theorem Cursor.place_of_mem_pending (r : Cursor) {n : Nat} (hline : r.position.line ≤ n)
    (hcolumn : r.position.column ≤ n) {t : Token} (ht : t ∈ r.pending) :
    t.line < n + r.ahead.length ∧ t.column < n + r.ahead.length := by
  induction r using byCalls generalizing n with
  | done r h =>
      rw [pending_eq_nil_iff.mpr h] at ht
      cases ht
  | call r c cs h ih =>
      have hwhole := congrArg List.length r.literal_append_ahead
      rw [List.length_append] at hwhole
      rw [pending_cons h] at ht
      rcases List.mem_cons.mp ht with rfl | ht
      · have hsome : 0 < r.ahead.length := by rw [h]; exact Nat.succ_pos _
        have hplace : r.next.1.line = r.position.line ∧ r.next.1.column = r.position.column := by
          unfold next
          simp only [h, Token.ofLexeme, and_self]
        omega
      · have hmoved := Position.after_le hline hcolumn r.next.1.literal.toList
        rw [← r.position_next] at hmoved
        have hrest := ih hmoved.1 hmoved.2 ht
        omega

theorem Token.fits_of_mem_tokenize {source : Source} {text : String}
    (hsize : text.length < UInt64.size) {t : Token} (ht : t ∈ tokenize source text) : t.Fits := by
  have hplace := (Cursor.ofText source text).place_of_mem_pending (Nat.le_refl 1) (Nat.le_refl 1) ht
  have hlength : (Cursor.ofText source text).ahead.length = text.length := String.length_toList
  rw [hlength] at hplace
  exact ⟨by omega, by omega⟩

-- ============================================================ places of blocks

theorem mem_tokens_of_mem_stretches {ts : List Token} {s : Stretch} (hs : s ∈ stretches ts)
    {t : Token} (ht : t ∈ s.opening :: s.inside) : t ∈ ts := by
  rw [← flatMap_stretches ts]
  exact List.mem_append_right _ (List.mem_flatMap.mpr ⟨s, hs, ht⟩)

/-- The markers of a block are tokens of its text. -/
theorem markers_of_mem_outcomes {r : Repository} {env : Environment} {source : Source}
    {text : String} {b : Block} (hb : .ok b ∈ Block.outcomes r env source text) :
    b.beginToken ∈ tokenize source text ∧ b.endToken ∈ tokenize source text := by
  unfold Block.outcomes at hb
  rw [Block.scan_eq] at hb
  obtain ⟨s, hs, houtcome⟩ := List.mem_map.mp hb
  have hyields := Stretch.yields_outcome r env s
  rw [houtcome] at hyields
  cases hyields with
  | block _ hclose _ _ _ =>
      obtain ⟨rest, hinside, -, -⟩ := hclose
      refine ⟨mem_tokens_of_mem_stretches hs List.mem_cons_self, ?_⟩
      apply mem_tokens_of_mem_stretches hs
      rw [hinside]
      simp

theorem Outcome.mem_blocks {outcomes : List Outcome} {b : Block} :
    b ∈ Outcome.blocks outcomes ↔ .ok b ∈ outcomes := by
  unfold Outcome.blocks
  rw [List.mem_filterMap]
  constructor
  · intro hsome
    obtain ⟨o, ho, hb⟩ := hsome
    cases o with
    | ok c => exact Option.some.inj hb ▸ ho
    | error p => cases hb
  · intro hb
    exact ⟨_, hb, rfl⟩

theorem Input.fits_of_mem_outcomes {i : Input} (hsize : i.text.length < UInt64.size)
    {r : Repository} {env : Environment} {b : Block} (hb : .ok b ∈ i.outcomes r env) : b.Fits := by
  unfold outcomes at hb
  cases hwhole : i.wholeContent? with
  | some t =>
      rw [hwhole] at hb
      obtain rfl := Except.ok.inj (List.mem_singleton.mp hb)
      have hzero : 0 < UInt64.size := by decide
      exact ⟨⟨hzero, hzero⟩, hzero, hzero⟩
  | none =>
      rw [hwhole] at hb
      have hmarkers := markers_of_mem_outcomes hb
      exact ⟨Token.fits_of_mem_tokenize hsize hmarkers.1,
        Token.fits_of_mem_tokenize hsize hmarkers.2⟩

-- ============================================================ successful analyses

variable {r : Repository} {env : Environment} {concurrency : Nat} {inputs : List Input}
  {blocks : List Block}

theorem analyze_eq_ok_iff : analyze r env inputs = .ok blocks ↔
    Outcome.problems (inputs.flatMap (Input.outcomes r env)) = []
      ∧ Block.sorted (Outcome.blocks (inputs.flatMap (Input.outcomes r env))) = blocks := by
  unfold analyze
  cases hproblems : Outcome.problems (inputs.flatMap (Input.outcomes r env)) with
  | nil => simp [hproblems]
  | cons p rest => simp [hproblems]

theorem analyzeConcurrently_eq_ok_iff : analyzeConcurrently concurrency r env inputs = .ok blocks ↔
    concurrency ≤ maxConcurrency ∧ analyze r env inputs = .ok blocks := by
  unfold analyzeConcurrently
  by_cases h : maxConcurrency < concurrency
  · rw [if_pos h]
    constructor
    · intro hfalse
      cases hfalse
    · intro hboth
      obtain ⟨hle, -⟩ := hboth
      omega
  · rw [if_neg h]
    exact ⟨fun hok => ⟨by omega, hok⟩, fun hok => hok.2⟩

theorem fits_of_analyzeConcurrently (hsizes : ∀ i ∈ inputs, i.text.length < UInt64.size)
    (h : analyzeConcurrently concurrency r env inputs = .ok blocks) {b : Block} (hb : b ∈ blocks) :
    b.Fits := by
  obtain ⟨-, rfl⟩ := analyze_eq_ok_iff.mp (analyzeConcurrently_eq_ok_iff.mp h).2
  have houtcome := Outcome.mem_blocks.mp ((sorted_perm _).mem_iff.mp hb)
  obtain ⟨i, hi, hmem⟩ := List.mem_flatMap.mp houtcome
  exact Input.fits_of_mem_outcomes (hsizes i hi) hmem

-- ============================================================ stable sorts

theorem mem_iff_of_filter {a b : List Block}
    (h : ∀ p : Precedence, a.filter (·.precedence = p) = b.filter (·.precedence = p)) (x : Block) :
    x ∈ a ↔ x ∈ b := by
  have hlevel := congrArg (x ∈ ·) (h x.precedence)
  simpa using hlevel

/-- A list in the order of the levels is determined by its blocks level by level. -/
theorem eq_of_filter {a b : List Block} (ha : SortedByLevel a) (hb : SortedByLevel b)
    (h : ∀ p : Precedence, a.filter (·.precedence = p) = b.filter (·.precedence = p)) : a = b := by
  induction a generalizing b with
  | nil =>
      cases b with
      | nil => rfl
      | cons y b => exact absurd ((mem_iff_of_filter h y).mpr List.mem_cons_self) List.not_mem_nil
  | cons x a ih =>
      cases b with
      | nil => exact absurd ((mem_iff_of_filter h x).mp List.mem_cons_self) List.not_mem_nil
      | cons y b =>
          have hmem := mem_iff_of_filter h
          -- the first blocks are of the lowest level that there is, so of the same
          have hxy : x.precedence.number ≤ y.precedence.number := by
            rcases List.mem_cons.mp ((hmem y).mpr List.mem_cons_self) with rfl | hy
            · exact Nat.le_refl _
            · exact (List.pairwise_cons.mp ha).1 y hy
          have hyx : y.precedence.number ≤ x.precedence.number := by
            rcases List.mem_cons.mp ((hmem x).mp List.mem_cons_self) with rfl | hx
            · exact Nat.le_refl _
            · exact (List.pairwise_cons.mp hb).1 x hx
          have hlevel : x.precedence = y.precedence :=
            Precedence.number_inj (Nat.le_antisymm hxy hyx)
          have hfirst := h x.precedence
          rw [List.filter_cons_of_pos (by simp), List.filter_cons_of_pos (by simp [hlevel])] at hfirst
          obtain ⟨rfl, -⟩ := List.cons.inj hfirst
          have htail (p : Precedence) :
              a.filter (·.precedence = p) = b.filter (·.precedence = p) := by
            have hp := h p
            by_cases hx : x.precedence = p
            · rw [List.filter_cons_of_pos (by simpa using hx),
                List.filter_cons_of_pos (by simpa using hx)] at hp
              exact (List.cons.inj hp).2
            · rw [List.filter_cons_of_neg (by simpa using hx),
                List.filter_cons_of_neg (by simpa using hx)] at hp
              exact hp
          rw [ih (List.pairwise_cons.mp ha).2 (List.pairwise_cons.mp hb).2 htail]

/-- Parts that are put together may have been sorted before. -/
theorem sorted_append_sorted (a b : List Block) :
    Block.sorted (Block.sorted a ++ Block.sorted b) = Block.sorted (a ++ b) := by
  apply eq_of_filter (sortedByLevel_sorted _) (sortedByLevel_sorted _)
  intro p
  rw [filter_sorted, filter_sorted, List.filter_append, List.filter_append, filter_sorted,
    filter_sorted]

-- ============================================================ merging

theorem Interim.mapM_ofInput {inputs : List Input} {states : List (List Block)}
    (htexts : inputs.map (·.text) = states.map Interim.write)
    (hfits : ∀ blocks ∈ states, ∀ b ∈ blocks, b.Fits) :
    inputs.mapM Interim.ofInput = .ok states := by
  induction inputs generalizing states with
  | nil =>
      cases states with
      | nil => rfl
      | cons blocks states => cases htexts
  | cons i inputs ih =>
      cases states with
      | nil => cases htexts
      | cons blocks states =>
          obtain ⟨htext, hrest⟩ := List.cons.inj htexts
          have htext : i.text = Interim.write blocks := htext
          have hfirst : Interim.ofInput i = .ok blocks := by
            unfold Interim.ofInput
            rw [htext, Interim.read?_write (hfits blocks List.mem_cons_self)]
          rw [List.mapM_cons, hfirst,
            ih hrest fun bs hbs => hfits bs (List.mem_cons_of_mem blocks hbs)]
          rfl

/-- What was written is read, whatever the files are called. -/
theorem Interim.merge_of_texts {inputs : List Input} {states : List (List Block)}
    (htexts : inputs.map (·.text) = states.map Interim.write)
    (hfits : ∀ blocks ∈ states, ∀ b ∈ blocks, b.Fits) :
    Interim.merge inputs = .ok (Block.sorted states.flatten) := by
  unfold Interim.merge
  rw [Interim.mapM_ofInput htexts hfits]
  rfl

-- ============================================================ parts of a batch

theorem problems_append (r : Repository) (env : Environment) (first second : List Input) :
    Outcome.problems ((first ++ second).flatMap (Input.outcomes r env))
      = Outcome.problems (first.flatMap (Input.outcomes r env))
        ++ Outcome.problems (second.flatMap (Input.outcomes r env)) := by
  unfold Outcome.problems
  rw [List.flatMap_append, List.filterMap_append]

theorem blocks_append (r : Repository) (env : Environment) (first second : List Input) :
    Outcome.blocks ((first ++ second).flatMap (Input.outcomes r env))
      = Outcome.blocks (first.flatMap (Input.outcomes r env))
        ++ Outcome.blocks (second.flatMap (Input.outcomes r env)) := by
  unfold Outcome.blocks
  rw [List.flatMap_append, List.filterMap_append]

theorem analyzeConcurrently_append_ok_iff {first second : List Input} :
    analyzeConcurrently concurrency r env (first ++ second) = .ok blocks ↔
      ∃ a b, analyzeConcurrently concurrency r env first = .ok a
        ∧ analyzeConcurrently concurrency r env second = .ok b
        ∧ Block.sorted (a ++ b) = blocks := by
  simp only [analyzeConcurrently_eq_ok_iff, analyze_eq_ok_iff, problems_append, blocks_append,
    List.append_eq_nil_iff]
  constructor
  · intro hboth
    obtain ⟨hlimit, ⟨hfirst, hsecond⟩, rfl⟩ := hboth
    exact ⟨_, _, ⟨hlimit, hfirst, rfl⟩, ⟨hlimit, hsecond, rfl⟩, sorted_append_sorted _ _⟩
  · intro hsome
    obtain ⟨a, b, ⟨hlimit, hfirst, rfl⟩, ⟨-, hsecond, rfl⟩, rfl⟩ := hsome
    exact ⟨hlimit, ⟨hfirst, hsecond⟩, (sorted_append_sorted _ _).symm⟩

/-- A batch is analysed if and only if both its parts are, and then the merged interim
states of the parts are its blocks. Texts are shorter than 2^64 characters, as they are in any
memory. -/
theorem merge_of_parts (concurrency : Nat) (r : Repository) (env : Environment)
    (first second : List Input) :
    ((∃ blocks, analyzeConcurrently concurrency r env (first ++ second) = .ok blocks) ↔
        (∃ a, analyzeConcurrently concurrency r env first = .ok a)
          ∧ ∃ b, analyzeConcurrently concurrency r env second = .ok b)
      ∧ ∀ a b, analyzeConcurrently concurrency r env first = .ok a →
          analyzeConcurrently concurrency r env second = .ok b →
          (∀ i ∈ first ++ second, i.text.length < UInt64.size) →
          ∀ firstFile firstPath secondFile secondPath, ∃ blocks,
            analyzeConcurrently concurrency r env (first ++ second) = .ok blocks
              ∧ Interim.merge [⟨firstFile, firstPath, Interim.write a⟩,
                  ⟨secondFile, secondPath, Interim.write b⟩] = .ok blocks := by
  refine ⟨⟨?_, ?_⟩, ?_⟩
  · intro hsome
    obtain ⟨blocks, hblocks⟩ := hsome
    obtain ⟨a, b, ha, hb, -⟩ := analyzeConcurrently_append_ok_iff.mp hblocks
    exact ⟨⟨a, ha⟩, b, hb⟩
  · intro hsome
    obtain ⟨⟨a, ha⟩, b, hb⟩ := hsome
    exact ⟨_, analyzeConcurrently_append_ok_iff.mpr ⟨a, b, ha, hb, rfl⟩⟩
  · intro a b ha hb hsizes firstFile firstPath secondFile secondPath
    refine ⟨_, analyzeConcurrently_append_ok_iff.mpr ⟨a, b, ha, hb, rfl⟩, ?_⟩
    have hfits : ∀ blocks ∈ [a, b], ∀ x ∈ blocks, x.Fits := by
      intro blocks hblocks x hx
      rcases List.mem_pair.mp hblocks with rfl | rfl
      · exact fits_of_analyzeConcurrently (fun i hi => hsizes i (List.mem_append_left _ hi)) ha hx
      · exact fits_of_analyzeConcurrently (fun i hi => hsizes i (List.mem_append_right _ hi)) hb hx
    have hmerge := @Interim.merge_of_texts [⟨firstFile, firstPath, Interim.write a⟩,
      ⟨secondFile, secondPath, Interim.write b⟩] [a, b] rfl hfits
    simpa using hmerge

/-- The message comes in the first part and its service in the second. -/
theorem merge_of_parts_message_before_service :
    let message : Input :=
      ⟨"B.cs", "src/B.cs", "//+gendoc category=message type=example id=m\n1\n//-gendoc\n"⟩
    let service : Input :=
      ⟨"A.cs", "src/A.cs", "//+gendoc category=info type=title id=a\nA\n//-gendoc\n"⟩
    ∃ a b blocks, analyzeConcurrently 20 {} [] [message] = .ok a
      ∧ analyzeConcurrently 20 {} [] [service] = .ok b
      ∧ (∀ i ∈ [message] ++ [service], i.text.length < UInt64.size)
      ∧ analyzeConcurrently 20 {} [] ([message] ++ [service]) = .ok blocks
      ∧ Interim.merge [⟨"b.json", "b.json", Interim.write a⟩, ⟨"a.json", "a.json", Interim.write b⟩]
          = .ok blocks := by
  intro message service
  have hlimit : 20 ≤ maxConcurrency := by decide
  have hmessage := analyzeConcurrently_eq_ok_iff.mpr ⟨hlimit, analyze_eq_ok_iff.mpr
    ⟨show Outcome.problems ([message].flatMap (Input.outcomes {} [])) = [] by decide +kernel, rfl⟩⟩
  have hservice := analyzeConcurrently_eq_ok_iff.mpr ⟨hlimit, analyze_eq_ok_iff.mpr
    ⟨show Outcome.problems ([service].flatMap (Input.outcomes {} [])) = [] by decide +kernel, rfl⟩⟩
  have hsizes : ∀ i ∈ [message] ++ [service], i.text.length < UInt64.size := by decide
  obtain ⟨blocks, hwhole, hmerge⟩ := (merge_of_parts 20 {} [] [message] [service]).2 _ _ hmessage
    hservice hsizes "b.json" "b.json" "a.json" "a.json"
  exact ⟨_, _, blocks, hmessage, hservice, hsizes, hwhole, hmerge⟩

end EventDocs
