import EventDocs.Interim
import EventDocs.Proofs.Json.RoundTrip
import EventDocs.Rendering

/-
An interim state is an array, so a text that begins with a brace is none, whatever follows
(`read?_of_brace`). This is seen from the reader alone: behind an opening brace, whatever is
under way ends up inside that object (`InsideObject`), and no symbol can change that. Documents
in the JSON format are such texts.
-/

namespace EventDocs.Json

namespace Symbol

/-- Symbols that were read stay in front. -/
theorem readAll_append {done symbols : List Symbol} {cs : List Char}
    (h : readAll done cs = some symbols) : ∃ more, symbols = done.reverse ++ more := by
  fun_induction readAll done cs with
  | case1 done =>
      obtain rfl := Option.some.inj h
      exact ⟨[], (List.append_nil _).symm⟩
  | case2 done c cs hspace ih => exact ih h
  | case3 done c cs hspace s rest hread hlength ih =>
      obtain ⟨more, hmore⟩ := ih h
      exact ⟨s :: more, by simpa using hmore⟩
  | case4 done c cs hspace hread => cases h

end Symbol

namespace State

/-- What is outermost waits for a member. -/
def WithinMember (stack : List Frame) : Prop :=
  ∃ before name, stack.getLast? = some (.member before name)

/-- Whatever is under way ends up inside an object, or is that object. -/
def InsideObject : State → Prop
  | value stack | firstItem stack | nextItem _ stack => WithinMember stack
  | firstName stack | furtherName _ stack | colon _ _ stack | nextMember _ stack =>
    stack = [] ∨ WithinMember stack
  | finished t => ∃ members, t = .object members

variable {stack : List Frame} {s s' : State} {x : Symbol}

theorem withinMember_cons (h : WithinMember stack) (frame : Frame) :
    WithinMember (frame :: stack) := by
  obtain ⟨before, name, hlast⟩ := h
  refine ⟨before, name, ?_⟩
  rw [List.getLast?_cons, hlast]
  rfl

theorem withinMember_member (h : stack = [] ∨ WithinMember stack)
    (before : List (Spelling × Tree)) (name : Spelling) :
    WithinMember (.member before name :: stack) := by
  rcases h with rfl | h
  · exact ⟨before, name, rfl⟩
  · exact withinMember_cons h _

/-- A frame is outermost, or something is around it. -/
theorem withinMember_tail {frame : Frame} (h : WithinMember (frame :: stack)) :
    stack = [] ∧ (∃ before name, frame = .member before name) ∨ WithinMember stack := by
  obtain ⟨before, name, hlast⟩ := h
  cases stack with
  | nil =>
      obtain rfl := Option.some.inj hlast
      exact Or.inl ⟨rfl, before, name, rfl⟩
  | cons frame' stack =>
      rw [List.getLast?_cons_cons] at hlast
      exact Or.inr ⟨before, name, hlast⟩

theorem insideObject_deliver (h : WithinMember stack) (t : Tree) :
    InsideObject (deliver t stack) := by
  cases stack with
  | nil =>
      obtain ⟨before, name, hlast⟩ := h
      cases hlast
  | cons frame stack =>
      rcases withinMember_tail h with ⟨rfl, before, name, rfl⟩ | htail
      · exact Or.inl rfl
      · cases frame with
        | item before => exact htail
        | member before name => exact Or.inr htail

theorem insideObject_deliver_object (h : stack = [] ∨ WithinMember stack)
    (members : List (Spelling × Tree)) : InsideObject (deliver (.object members) stack) := by
  rcases h with rfl | h
  · exact ⟨members, rfl⟩
  · exact insideObject_deliver h _

theorem insideObject_start (h : WithinMember stack) (hstart : start stack x = some s') :
    InsideObject s' := by
  cases x with
  | null =>
      obtain rfl := Option.some.inj hstart
      exact insideObject_deliver h _
  | bool b =>
      obtain rfl := Option.some.inj hstart
      exact insideObject_deliver h _
  | number n =>
      obtain rfl := Option.some.inj hstart
      exact insideObject_deliver h _
  | string n =>
      obtain rfl := Option.some.inj hstart
      exact insideObject_deliver h _
  | openArray =>
      obtain rfl := Option.some.inj hstart
      exact h
  | openObject =>
      obtain rfl := Option.some.inj hstart
      exact Or.inr h
  | closeArray => cases hstart
  | closeObject => cases hstart
  | comma => cases hstart
  | colon => cases hstart

/-- No symbol leads out of the object. -/
theorem insideObject_step (h : InsideObject s) (hstep : s.step x = some s') : InsideObject s' := by
  cases s with
  | value stack => exact insideObject_start h hstep
  | firstItem stack =>
      by_cases hclose : x = .closeArray
      · subst hclose
        obtain rfl := Option.some.inj hstep
        exact insideObject_deliver h _
      · have hstart : start (.item [] :: stack) x = some s' := by
          cases x with
          | closeArray => exact absurd rfl hclose
          | _ => exact hstep
        exact insideObject_start (withinMember_cons h _) hstart
  | firstName stack =>
      cases x with
      | closeObject =>
          obtain rfl := Option.some.inj hstep
          exact insideObject_deliver_object h _
      | string n =>
          obtain rfl := Option.some.inj hstep
          exact h
      | _ => cases hstep
  | furtherName before stack =>
      cases x with
      | string n =>
          obtain rfl := Option.some.inj hstep
          exact h
      | _ => cases hstep
  | colon before n stack =>
      cases x with
      | colon =>
          obtain rfl := Option.some.inj hstep
          exact withinMember_member h before n
      | _ => cases hstep
  | nextItem before stack =>
      cases x with
      | comma =>
          obtain rfl := Option.some.inj hstep
          exact withinMember_cons h _
      | closeArray =>
          obtain rfl := Option.some.inj hstep
          exact insideObject_deliver h _
      | _ => cases hstep
  | nextMember before stack =>
      cases x with
      | comma =>
          obtain rfl := Option.some.inj hstep
          exact h
      | closeObject =>
          obtain rfl := Option.some.inj hstep
          exact insideObject_deliver_object h _
      | _ => cases hstep
  | finished t => cases hstep

theorem insideObject_run {symbols : List Symbol} (h : InsideObject s)
    (hrun : s.run symbols = some s') : InsideObject s' := by
  induction symbols generalizing s with
  | nil =>
      obtain rfl := Option.some.inj hrun
      exact h
  | cons x symbols ih =>
      rw [run] at hrun
      cases hstep : s.step x with
      | none =>
          rw [hstep] at hrun
          cases hrun
      | some s₁ =>
          rw [hstep] at hrun
          exact ih (insideObject_step h hstep) hrun

end State

/-- What a text with an opening brace holds is an object. -/
theorem Tree.read?_of_brace {cs : List Char} {t : Tree}
    (h : Tree.read? (.ofList ('{' :: cs)) = some t) : ∃ members, t = .object members := by
  unfold Tree.read? at h
  rw [String.toList_ofList, Symbol.readAll_openObject] at h
  simp only [Option.bind_eq_bind, Option.bind_eq_some_iff] at h
  obtain ⟨symbols, hsymbols, state, hrun, hresult⟩ := h
  obtain ⟨more, rfl⟩ := Symbol.readAll_append hsymbols
  have hinside := State.insideObject_run (s := .firstName []) (Or.inl rfl) hrun
  cases state with
  | finished tree =>
      obtain rfl := Option.some.inj hresult
      exact hinside
  | _ => cases hresult

end EventDocs.Json

namespace EventDocs

open Json

theorem Interim.read?_of_brace (cs : List Char) : Interim.read? (.ofList ('{' :: cs)) = none := by
  unfold Interim.read?
  cases hread : Tree.read? (.ofList ('{' :: cs)) with
  | none => rfl
  | some t =>
      obtain ⟨members, rfl⟩ := Tree.read?_of_brace hread
      rfl

/-- A document in the JSON format is no interim state. -/
theorem Interim.read?_render_json (d : Document) : Interim.read? (Format.json.render d) = none := by
  obtain ⟨m, ms, hvalue⟩ : ∃ m ms, d.toValue = .object (m :: ms) := ⟨_, _, rfl⟩
  obtain ⟨cs, hpretty⟩ : ∃ cs, d.toValue.pretty 0 = '{' :: cs := by
    rw [hvalue, Value.pretty]
    exact ⟨_, rfl⟩
  have htext : Format.json.render d = .ofList ('{' :: (cs ++ ['\n'])) := by
    show d.toValue.toPretty ++ "\n" = _
    rw [Value.toPretty, hpretty, ← List.cons_append, String.ofList_append]
  rw [htext, read?_of_brace]

end EventDocs
