import EventDocs.Proofs.ContextTree.Effects
import Mathlib.Algebra.Ring.Nat

/-
The leaf keys that one tree gives out in the course of its life.

A tree is asked for a leaf key now and then, and between two calls its nodes are added,
attached and deleted in any order (`Change`). Only the calls move the count, each by one
(`leafCount_undergo`), so the keys of a whole life are those of its calls, numbered one
after the other (`given_eq`), whatever else happened. The rest is said by the keys
themselves: a leaf key tells its number and its entity (`Key.leaf_inj`, `Key.owner_leaf`),
so two calls never get one key, even if an entity is called like a leaf of another.

The count of a tree has no bound. A counter of 64 bits shows the same numbers below 2 ^ 64 and
starts again then (`counted`); fewer calls than that cannot make it show one number twice,
wherever it stands when they begin.
-/

namespace EventDocs.ContextTree

-- ============================================================ statement vocabulary

/-- What can be done to a tree. -/
inductive Change where
  | leafKey (k : Key)
  | add (node : Node) (parent : NodeId)
  | attach (n parent : NodeId)
  | delete (k : Key)
deriving DecidableEq, Repr

/-- The tree after a change, and the leaf key if one was asked for. -/
def undergo (t : ContextTree) : Change → Option Key × ContextTree
  | .leafKey k => (some (t.leafKey k).1, (t.leafKey k).2)
  | .add node parent => (none, (t.add node parent).2)
  | .attach n parent => (none, t.attach n parent)
  | .delete k => (none, (t.delete k).2)

/-- The leaf keys given out in the course of some changes. -/
def given (t : ContextTree) : List Change → List Key
  | [] => []
  | change :: later =>
    (t.undergo change).1.toList ++ (t.undergo change).2.given later

/-- The key that a change asks a leaf key for. -/
def Change.asked? : Change → Option Key
  | .leafKey k => some k
  | _ => none

/-- The keys that leaf keys are asked for in the course of some changes. -/
def asked (changes : List Change) : List Key := changes.filterMap Change.asked?

/-- The leaf keys that a counter of 64 bits gives out when it shows `count`: it is moved on and
then read. Zero comes behind its greatest number. -/
def counted (count : UInt64) : List Key → List Key
  | [] => []
  | k :: keys => k.leaf (count + 1).toNat :: counted (count + 1) keys

-- ============================================================ one change

/-- Only a call for a leaf key counts. -/
theorem leafCount_undergo (t : ContextTree) (change : Change) :
    (t.undergo change).2.leafCount = t.leafCount + change.asked?.toList.length := by
  cases change with
  | leafKey k => rfl
  | add node parent => exact leafCount_add t node parent
  | attach n parent => exact t.leafCount_attach n parent
  | delete k => exact t.leafCount_delete k

/-- A call is answered by the key with the next number. -/
theorem given_undergo (t : ContextTree) (change : Change) :
    (t.undergo change).1 = change.asked?.map (·.leaf (t.leafCount + 1)) := by
  cases change <;> rfl

-- ============================================================ a life of changes

theorem asked_cons (change : Change) (later : List Change) :
    asked (change :: later) = change.asked?.toList ++ asked later := by
  unfold asked
  rw [List.filterMap_cons]
  cases change.asked? <;> rfl

/-- The keys of a life are those of its calls, numbered from the next number on. -/
theorem given_eq (t : ContextTree) (changes : List Change) :
    t.given changes = (asked changes).mapIdx fun i k => k.leaf (t.leafCount + 1 + i) := by
  induction changes generalizing t with
  | nil => rfl
  | cons change later ih =>
      rw [given, ih, given_undergo, leafCount_undergo, asked_cons]
      cases change.asked? with
      | none => rfl
      | some k =>
          have hnumber : ∀ i, t.leafCount + 1 + 1 + i = t.leafCount + 1 + (i + 1) := by omega
          simp [List.mapIdx_cons, hnumber]

theorem counted_eq (count : UInt64) (keys : List Key) :
    counted count keys
      = keys.mapIdx fun i k => k.leaf (count + 1 + UInt64.ofNat i).toNat := by
  induction keys generalizing count with
  | nil => rfl
  | cons k keys ih =>
      have hnumber : ∀ i, count + 1 + 1 + UInt64.ofNat i = count + 1 + UInt64.ofNat (i + 1) := by
        intro i
        rw [UInt64.ofNat_add, UInt64.add_assoc (count + 1), UInt64.add_comm 1]
        rfl
      rw [counted, ih, List.mapIdx_cons]
      simp [hnumber]

-- ============================================================ numbered keys

/-- Keys with different numbers are different, whatever they are for. -/
theorem nodup_mapIdx_leaf {keys : List Key} {number : Nat → Nat}
    (hnumber : ∀ i < keys.length, ∀ j < keys.length, number i = number j → i = j) :
    (keys.mapIdx fun i k => k.leaf (number i)).Nodup := by
  rw [List.Nodup, List.pairwise_iff_getElem]
  intro i j hi hj hlt heq
  rw [List.getElem_mapIdx, List.getElem_mapIdx] at heq
  rw [List.length_mapIdx] at hi hj
  have hsame : i = j := hnumber i hi j hj (Key.leaf_inj heq).2
  omega

/-- A key leads back to what it is for, whatever its number is. -/
theorem map_owner_mapIdx_leaf (keys : List Key) (number : Nat → Nat) :
    (keys.mapIdx fun i k => k.leaf (number i)).map Key.owner = keys := by
  apply List.ext_getElem?
  intro i
  cases h : keys[i]? <;> simp [h]

/-- Fewer than 2 ^ 64 numbers of a counter of 64 bits in a row are different. -/
theorem toNat_counter_inj {count : UInt64} {i j : Nat} (hi : i < 2 ^ 64) (hj : j < 2 ^ 64)
    (h : (count + 1 + UInt64.ofNat i).toNat = (count + 1 + UInt64.ofNat j).toNat) : i = j := by
  simp only [UInt64.toNat_add, UInt64.toNat_ofNat'] at h
  omega

/-- Below 2 ^ 64 they are the numbers that come next. -/
theorem toNat_counter {count i : Nat} (h : count + 1 + i < 2 ^ 64) :
    (UInt64.ofNat count + 1 + UInt64.ofNat i).toNat = count + 1 + i := by
  simp only [UInt64.toNat_add, UInt64.toNat_ofNat', UInt64.reduceToNat]
  omega

-- ============================================================ what is given out

/-- The leaf keys that a tree gives out are pairwise different and lead back, one by one, to the
keys that they were asked for, whatever happens to the tree between the calls. With a counter of
64 bits the same is true of fewer than 2 ^ 64 calls, wherever it stands; and it gives the very
same keys if the calls in the whole life of the tree are fewer. -/
theorem given_distinct_and_owned (t : ContextTree) (changes : List Change)
    (hcalls : (asked changes).length < 2 ^ 64) :
    (t.given changes).Nodup
      ∧ (t.given changes).map Key.owner = asked changes
      ∧ (counted (.ofNat t.leafCount) (asked changes)).Nodup
      ∧ (counted (.ofNat t.leafCount) (asked changes)).map Key.owner = asked changes
      ∧ (t.leafCount + (asked changes).length < 2 ^ 64 →
          t.given changes = counted (.ofNat t.leafCount) (asked changes)) := by
  rw [given_eq, counted_eq]
  refine ⟨nodup_mapIdx_leaf ?_, map_owner_mapIdx_leaf _ _, nodup_mapIdx_leaf ?_,
    map_owner_mapIdx_leaf _ _, fun hlife => ?_⟩
  · intro i _ j _ heq
    exact Nat.add_left_cancel heq
  · intro i hi j hj heq
    exact toNat_counter_inj (Nat.lt_trans hi hcalls) (Nat.lt_trans hj hcalls) heq
  · rw [List.mapIdx_eq_mapIdx_iff]
    intro i hi
    rw [toNat_counter (by omega)]

/-- An entity, one that is called like its leaf, and one that ends in a part of the mark. -/
theorem given_distinct_and_owned_look_alikes :
    let changes : List Change := [.leafKey ⟨.service, "a"⟩,
      .add (.entity ⟨.service, "a"⟩ default) parented, .leafKey ⟨.service, "a__leaf__1"⟩,
      .delete ⟨.service, "a"⟩, .leafKey ⟨.service, "a__leaf"⟩]
    (asked changes).length < 2 ^ 64
      ∧ (empty.given changes).map (·.id)
          = ["a__leaf__1", "a__leaf__1__leaf__2", "a__leaf__leaf__3"]
      ∧ (empty.given changes).Nodup
      ∧ ((empty.given changes).map Key.owner).map (·.id) = ["a", "a__leaf__1", "a__leaf"] := by
  intro changes
  have hcalls : (asked changes).length < 2 ^ 64 := by decide
  obtain ⟨hnodup, howner, -⟩ := given_distinct_and_owned empty changes hcalls
  refine ⟨hcalls, by decide, hnodup, ?_⟩
  rw [howner]
  decide

end EventDocs.ContextTree
