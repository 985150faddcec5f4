import EventDocs.Proofs.Json.RoundTrip
import EventDocs.Proofs.NameMap

/-
What is printed over lines reads back as the value that it was printed from, with the members of
its objects in the order of their names.

A value that can be read back has only integers for numbers, and in no object two members of one
name (`Plain`). It is written as a tree that is as deep as the value and has its names
(`exists_tree`); the rest is the round trip of trees. What was read has its members in order
(`orderedNames_of_read?`), and what has them in order reads back as itself (`inOrder_eq_self`).
-/

namespace EventDocs.Json

variable {v : Value} {items : List Value} {members : List (String × Value)}

namespace Value

-- ============================================================ values and their parts

/-- Induction on values, with the parts of an array or an object by membership. -/
@[elab_as_elim]
theorem inductionOnParts {motive : Value → Prop} (v : Value) (null : motive .null)
    (bool : ∀ b, motive (.bool b)) (number : ∀ n, motive (.number n))
    (string : ∀ s, motive (.string s))
    (array : ∀ items, (∀ v ∈ items, motive v) → motive (.array items))
    (object : ∀ members, (∀ m ∈ members, motive m.2) → motive (.object members)) : motive v :=
  @Value.rec motive (fun items => ∀ v ∈ items, motive v) (fun members => ∀ m ∈ members, motive m.2)
    (fun m => motive m.2) null bool number string array object
    (fun v hv => by cases hv) (fun _ _ hhead htail => List.forall_mem_cons.mpr ⟨hhead, htail⟩)
    (fun m hm => by cases hm) (fun _ _ hhead htail => List.forall_mem_cons.mpr ⟨hhead, htail⟩)
    (fun _ _ h => h) v

/-- A value is another one or a part of it, however deep. -/
inductive Within (w : Value) : Value → Prop
  | self : Within w w
  | item {v : Value} {items : List Value} (hv : v ∈ items) (h : Within w v) :
    Within w (.array items)
  | member {m : String × Value} {members : List (String × Value)} (hm : m ∈ members)
    (h : Within w m.2) : Within w (.object members)

/-- Something holds of a value and of all its parts. -/
def Throughout (P : Value → Prop) (v : Value) : Prop := ∀ w, Within w v → P w

section

variable {P : Value → Prop}

theorem Throughout.self (h : Throughout P v) : P v := h v .self

theorem throughout_string {s : String} : Throughout P (.string s) ↔ P (.string s) := by
  constructor
  · exact Throughout.self
  · intro h w hw
    cases hw
    exact h

theorem throughout_array :
    Throughout P (.array items) ↔ P (.array items) ∧ ∀ v ∈ items, Throughout P v := by
  constructor
  · intro h
    exact ⟨h.self, fun v hv w hw => h w (.item hv hw)⟩
  · rintro ⟨hself, hitems⟩ w hw
    cases hw with
    | self => exact hself
    | item hv hw => exact hitems _ hv w hw

theorem throughout_object :
    Throughout P (.object members) ↔ P (.object members) ∧ ∀ m ∈ members, Throughout P m.2 := by
  constructor
  · intro h
    exact ⟨h.self, fun m hm w hw => h w (.member hm hw)⟩
  · rintro ⟨hself, hmembers⟩ w hw
    cases hw with
    | self => exact hself
    | member hm hw => exact hmembers _ hm w hw

end

mutual

/-- Does a test succeed on a value and on all its parts? -/
def allParts (p : Value → Bool) : Value → Bool
  | null => p null
  | bool b => p (bool b)
  | number n => p (number n)
  | string s => p (string s)
  | array items => p (array items) && allItems p items
  | object members => p (object members) && allMembers p members

/-- Does it succeed on some items and all their parts? -/
def allItems (p : Value → Bool) : List Value → Bool
  | [] => true
  | v :: vs => v.allParts p && allItems p vs

/-- Does it succeed on some members and all their parts? -/
def allMembers (p : Value → Bool) : List (String × Value) → Bool
  | [] => true
  | (_, v) :: ms => v.allParts p && allMembers p ms

end

theorem allItems_iff {p : Value → Bool} :
    allItems p items = true ↔ ∀ v ∈ items, v.allParts p = true := by
  induction items with
  | nil => simp [allItems]
  | cons v items ih => simp [allItems, ih]

theorem allMembers_iff {p : Value → Bool} :
    allMembers p members = true ↔ ∀ m ∈ members, m.2.allParts p = true := by
  induction members with
  | nil => simp [allMembers]
  | cons m members ih => simp [allMembers, ih]

theorem allParts_iff {p : Value → Bool} :
    v.allParts p = true ↔ v.Throughout fun w => p w = true := by
  induction v using inductionOnParts with
  | null | bool | number | string => exact ⟨fun h w hw => by cases hw; exact h, (·.self)⟩
  | array items ih =>
      rw [allParts, Bool.and_eq_true, allItems_iff, throughout_array]
      exact and_congr_right fun _ => forall₂_congr ih
  | object members ih =>
      rw [allParts, Bool.and_eq_true, allMembers_iff, throughout_object]
      exact and_congr_right fun _ => forall₂_congr ih

instance (P : Value → Prop) [DecidablePred P] (v : Value) : Decidable (v.Throughout P) :=
  decidable_of_iff (v.allParts fun w => decide (P w)) (by rw [allParts_iff]; simp)

-- ============================================================ statement vocabulary

/-- If the value is a number, it is an integer of 64 bits, signed or unsigned. -/
def Integer64 : Value → Prop
  | number (.integer n) => -0x8000000000000000 ≤ n ∧ n ≤ maxUnsigned
  | number (.float _ _) => False
  | _ => True

instance : DecidablePred Integer64
  | number (.integer _) => inferInstanceAs (Decidable (_ ∧ _))
  | number (.float _ _) => isFalse id
  | null | bool _ | string _ | array _ | object _ => isTrue trivial

/-- If the value is an object, no two of its members have one name. -/
def DistinctNames : Value → Prop
  | object members => (members.map Prod.fst).Nodup
  | _ => True

/-- What can be read back as it was written. -/
structure Plain (v : Value) : Prop where
  integer : v.Integer64
  names : v.DistinctNames

/-- If the value is an object, its members stand in the order of their names. -/
def OrderedNames : Value → Prop
  | object members => Ascending members
  | _ => True

instance : DecidablePred OrderedNames
  | object members => inferInstanceAs (Decidable (members.Pairwise _))
  | null | bool _ | number _ | string _ | array _ => isTrue trivial

mutual

/-- How many arrays and objects lie around the innermost value, its own
included. -/
def depth : Value → Nat
  | array items => itemsDepth items + 1
  | object members => membersDepth members + 1
  | _ => 0

/-- The greatest depth among some items. -/
def itemsDepth : List Value → Nat
  | [] => 0
  | v :: vs => max v.depth (itemsDepth vs)

/-- The greatest depth among some members. -/
def membersDepth : List (String × Value) → Nat
  | [] => 0
  | (_, v) :: ms => max v.depth (membersDepth ms)

end

mutual

/-- The value with the members of all objects in order. -/
def inOrder : Value → Value
  | array items => array (itemsInOrder items)
  | object members => object (NameMap.ofList (membersInOrder members)).bindings
  | v => v

/-- Items with the members of all objects in order. -/
def itemsInOrder : List Value → List Value
  | [] => []
  | v :: vs => v.inOrder :: itemsInOrder vs

/-- Members, where they stand, with the members of all objects in them in order. -/
def membersInOrder : List (String × Value) → List (String × Value)
  | [] => []
  | (name, v) :: ms => (name, v.inOrder) :: membersInOrder ms

end

theorem OrderedNames.distinct (h : v.OrderedNames) : v.DistinctNames := by
  cases v with
  | object members => exact Ascending.nodup h
  | _ => trivial

theorem throughout_plain (hinteger : v.Throughout Integer64)
    (hordered : v.Throughout OrderedNames) : v.Throughout Plain :=
  fun w hw => ⟨hinteger w hw, (hordered w hw).distinct⟩

@[simp] theorem inOrder_string (s : String) : (string s).inOrder = string s := rfl

theorem itemsInOrder_eq_map (items : List Value) : itemsInOrder items = items.map inOrder := by
  induction items with
  | nil => rfl
  | cons v items ih => rw [itemsInOrder, ih, List.map_cons]

theorem membersInOrder_eq_map (members : List (String × Value)) :
    membersInOrder members = members.map fun m => (m.1, m.2.inOrder) := by
  induction members with
  | nil => rfl
  | cons m members ih => rw [membersInOrder, ih, List.map_cons]

/-- What is in order stays as it is. -/
theorem inOrder_eq_self (h : v.Throughout OrderedNames) : v.inOrder = v := by
  induction v using inductionOnParts with
  | null | bool | number | string => rfl
  | array items ih =>
      have hitems : items.map inOrder = items.map id :=
        List.map_congr_left fun v hv => ih v hv ((throughout_array.mp h).2 v hv)
      rw [inOrder, itemsInOrder_eq_map, hitems, List.map_id]
  | object members ih =>
      obtain ⟨hself, hparts⟩ := throughout_object.mp h
      have hmembers : (members.map fun m => (m.1, m.2.inOrder)) = members.map id :=
        List.map_congr_left fun m hm => Prod.ext rfl (ih m hm (hparts m hm))
      rw [inOrder, membersInOrder_eq_map, hmembers, List.map_id, NameMap.bindings_ofList hself]

end Value

namespace Tree

mutual

/-- No object has two members of one name. -/
def NamesOnce : Tree → Prop
  | array items => ItemsNamesOnce items
  | object members => (members.map Prod.fst).Nodup ∧ MembersNamesOnce members
  | _ => True

/-- Nor has any object in some items. -/
def ItemsNamesOnce : List Tree → Prop
  | [] => True
  | t :: ts => t.NamesOnce ∧ ItemsNamesOnce ts

/-- Nor has any object in some members. -/
def MembersNamesOnce : List (Spelling × Tree) → Prop
  | [] => True
  | (_, t) :: ms => t.NamesOnce ∧ MembersNamesOnce ms

end

end Tree

-- ============================================================ the tree of a value

/-- An integer of 64 bits is read as itself. -/
theorem Number.ofNumeral?_ofInt {n : Int} (hlow : -0x8000000000000000 ≤ n)
    (hhigh : n ≤ maxUnsigned) :
    Number.ofNumeral? (.ofInt n) = some (.integer n) := by
  unfold ofNumeral? Numeral.ofInt
  simp only [digitsValue_natural]
  by_cases hn : n < 0
  · rw [decide_eq_true hn, if_pos rfl, if_neg (by omega)]
    congr 2
    omega
  · rw [decide_eq_false hn, if_neg (by decide), if_neg (by omega)]
    congr 2
    omega

namespace Value

/-- What is known about the tree that a value is written as. -/
structure ReadsBack (v : Value) (t : Tree) : Prop where
  written : v.WrittenAs t
  depth : t.depth = v.depth
  value : ofTree? t = some v.inOrder
  once : t.NamesOnce

theorem exists_items (h : ∀ v ∈ items, ∃ t, v.ReadsBack t) :
    ∃ ts, ItemsWrittenAs items ts ∧ Tree.itemsDepth ts = itemsDepth items
      ∧ itemsOfTrees? ts = some (itemsInOrder items) ∧ Tree.ItemsNamesOnce ts := by
  induction items with
  | nil => exact ⟨[], .nil, rfl, rfl, trivial⟩
  | cons v items ih =>
      obtain ⟨⟨t, hv⟩, hitems⟩ := List.forall_mem_cons.mp h
      obtain ⟨ts, hwritten, hdepth, hvalues, honce⟩ := ih hitems
      refine ⟨t :: ts, .cons hv.written hwritten, ?_, ?_, hv.once, honce⟩
      · rw [Tree.itemsDepth, itemsDepth, hv.depth, hdepth]
      · rw [itemsOfTrees?, itemsInOrder, hv.value, hvalues]

theorem exists_members (h : ∀ m ∈ members, ∃ t, m.2.ReadsBack t) :
    ∃ ts, MembersWrittenAs members ts ∧ Tree.membersDepth ts = membersDepth members
      ∧ (∀ m : NameMap Value, membersOfTrees? m.bindings ts
        = some ((membersInOrder members).foldl (fun m b => m.insert b.1 b.2) m).bindings)
      ∧ ts.map Prod.fst = members.map (fun m => some m.1) ∧ Tree.MembersNamesOnce ts := by
  induction members with
  | nil => exact ⟨[], .nil, rfl, fun m => rfl, rfl, trivial⟩
  | cons first members ih =>
      obtain ⟨name, v⟩ := first
      obtain ⟨⟨t, hv⟩, hmembers⟩ := List.forall_mem_cons.mp h
      obtain ⟨ts, hwritten, hdepth, hvalues, hnames, honce⟩ := ih hmembers
      refine ⟨(some name, t) :: ts, .cons name hv.written hwritten, ?_, ?_, ?_, hv.once, honce⟩
      · rw [Tree.membersDepth, membersDepth, hv.depth, hdepth]
      · intro m
        simp only [membersOfTrees?, hv.value, membersInOrder, List.foldl_cons]
        exact hvalues (m.insert name v.inOrder)
      · rw [List.map_cons, List.map_cons, hnames]

/-- A plain value is written as a tree that reads back. -/
theorem exists_tree (h : v.Throughout Plain) : ∃ t, v.ReadsBack t := by
  induction v using inductionOnParts with
  | null => exact ⟨_, .null, rfl, rfl, trivial⟩
  | bool b => exact ⟨_, .bool b, rfl, rfl, trivial⟩
  | string s => exact ⟨_, .string s, rfl, rfl, trivial⟩
  | number n =>
      cases n with
      | float negative magnitude => cases h.self.integer
      | integer n =>
          obtain ⟨hlow, hhigh⟩ := h.self.integer
          refine ⟨_, .integer n, rfl, ?_, trivial⟩
          rw [ofTree?, Number.ofNumeral?_ofInt hlow hhigh]
          rfl
  | array items ih =>
      have hparts : ∀ v ∈ items, ∃ t, v.ReadsBack t := fun v hv =>
        ih v hv ((throughout_array.mp h).2 v hv)
      obtain ⟨ts, hwritten, hdepth, hvalues, honce⟩ := exists_items hparts
      refine ⟨.array ts, .array hwritten, ?_, ?_, honce⟩
      · rw [Tree.depth, depth, hdepth]
      · rw [ofTree?, hvalues, inOrder]
        rfl
  | object members ih =>
      obtain ⟨hplain, hmembers⟩ := throughout_object.mp h
      have hparts : ∀ m ∈ members, ∃ t, m.2.ReadsBack t := fun m hm => ih m hm (hmembers m hm)
      obtain ⟨ts, hwritten, hdepth, hvalues, htexts, honce⟩ := exists_members hparts
      refine ⟨.object ts, .object hwritten, ?_, ?_, ?_, honce⟩
      · rw [Tree.depth, depth, hdepth]
      · have hall := hvalues .empty
        rw [ofTree?, inOrder, NameMap.ofList]
        exact congrArg (Option.map Value.object) hall
      · rw [htexts, ← Function.comp_def, ← List.map_map]
        exact List.Nodup.map (fun _ _ => Option.some.inj) hplain.names

/-- The text of a value over lines reads back as the value in order, and names no member of an
object twice. -/
theorem read?_toPretty_line (h : v.Throughout Plain) (hdepth : v.depth ≤ maxDepth) :
    read? (v.toPretty ++ "\n") = some v.inOrder
      ∧ ∃ t, Tree.read? (v.toPretty ++ "\n") = some t ∧ t.NamesOnce := by
  obtain ⟨t, ht⟩ := exists_tree h
  have htree := Tree.read?_toPretty_line ht.written
  refine ⟨?_, t, htree, ht.once⟩
  have hread : read? (v.toPretty ++ "\n") = if maxDepth < t.depth then none else ofTree? t := by
    simp [read?, htree]
  rw [hread, ht.depth, if_neg (Nat.not_lt.mpr hdepth), ht.value]

-- ============================================================ what was read

mutual

theorem orderedNames_of_ofTree? (t : Tree) {v : Value} (h : ofTree? t = some v) :
    v.Throughout OrderedNames := by
  match t with
  | .null | .bool _ =>
    obtain rfl := Option.some.inj h
    intro w hw
    cases hw
    trivial
  | .number n =>
    obtain ⟨m, -, rfl⟩ := Option.map_eq_some_iff.mp h
    intro w hw
    cases hw
    trivial
  | .string s =>
    obtain ⟨text, -, rfl⟩ := Option.map_eq_some_iff.mp h
    exact throughout_string.mpr trivial
  | .array items =>
    obtain ⟨vs, hvs, rfl⟩ := Option.map_eq_some_iff.mp h
    exact throughout_array.mpr ⟨trivial, orderedNames_of_itemsOfTrees? items hvs⟩
  | .object members =>
    obtain ⟨ms, hms, rfl⟩ := Option.map_eq_some_iff.mp h
    obtain ⟨hascending, hparts⟩ :=
      orderedNames_of_membersOfTrees? members .nil (fun m hm => by cases hm) hms
    exact throughout_object.mpr ⟨hascending, hparts⟩

theorem orderedNames_of_itemsOfTrees? (ts : List Tree) {vs : List Value}
    (h : itemsOfTrees? ts = some vs) : ∀ v ∈ vs, v.Throughout OrderedNames := by
  match ts with
  | [] =>
    obtain rfl := Option.some.inj h
    intro v hv
    cases hv
  | t :: ts =>
    unfold itemsOfTrees? at h
    split at h
    next v vs' hv hvs =>
      obtain rfl := Option.some.inj h
      exact List.forall_mem_cons.mpr
        ⟨orderedNames_of_ofTree? t hv, orderedNames_of_itemsOfTrees? ts hvs⟩
    next => cases h

theorem orderedNames_of_membersOfTrees? (ts : List (Spelling × Tree))
    {sofar ms : List (String × Value)} (hascending : Ascending sofar)
    (hparts : ∀ m ∈ sofar, m.2.Throughout OrderedNames) (h : membersOfTrees? sofar ts = some ms) :
    Ascending ms ∧ ∀ m ∈ ms, m.2.Throughout OrderedNames := by
  match ts with
  | [] =>
    obtain rfl := Option.some.inj h
    exact ⟨hascending, hparts⟩
  | (name, t) :: ts =>
    unfold membersOfTrees? at h
    split at h
    next n v hv =>
      refine orderedNames_of_membersOfTrees? ts hascending.insertByName ?_ h
      intro m hm
      rcases mem_insertByName hm with rfl | hm
      · exact orderedNames_of_ofTree? t hv
      · exact hparts m hm
    next => cases h

end

theorem orderedNames_of_read? {text : String} (h : read? text = some v) :
    v.Throughout OrderedNames := by
  unfold read? at h
  obtain ⟨t, -, ht⟩ := Option.bind_eq_some_iff.mp h
  split at ht
  · cases ht
  · exact orderedNames_of_ofTree? t ht

end Value

end EventDocs.Json
