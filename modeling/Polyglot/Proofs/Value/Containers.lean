import Mathlib.Data.Finset.Card
import Mathlib.Data.Finset.Prod
import Polyglot.Proofs.OrderedMap
import Polyglot.Value.Basic

/-!
# Containers

A value that is a container has parts, which may have parts in turn. A heap has finitely many
containers, and a container that holds something is one of them. A way down that never comes to the
same container twice is therefore bounded; what is still ahead of it is counted by `room`.
-/

namespace Polyglot

variable {α : Type}

/-! ## Ways that never come back -/

/-- The number of places of a finite set that are not on the way so far. -/
def room [DecidableEq α] (places : Finset α) (way : List α) : Nat :=
  (places \ way.toFinset).card

theorem room_nil_le [DecidableEq α] (places : Finset α) : room places [] ≤ places.card := by
  simp [room]

theorem room_cons_lt [DecidableEq α] {places : Finset α} {way : List α} {place : α}
    (inside : place ∈ places) (new : place ∉ way) :
    room places (place :: way) < room places way := by
  apply Finset.card_lt_card
  rw [Finset.ssubset_iff_of_subset]
  · exact ⟨place, by simp [inside, new], by simp⟩
  · intro other member
    simp only [Finset.mem_sdiff, List.mem_toFinset, List.mem_cons, not_or] at member ⊢
    exact ⟨member.1, member.2.2⟩

/-- The value that is a container. -/
def Ref.value : Ref → Value
  | .list id => .list id
  | .map id => .map id

namespace Heap

variable {h : Heap} {id : Nat}

/-! ## What is there -/

theorem items_of_le (absent : h.lists.size ≤ id) : h.items id = #[] := by
  simp [items, Array.getD_eq_getD_getElem?, absent]

theorem entries_of_le (absent : h.maps.size ≤ id) : h.entries id = {} := by
  simp [entries, Array.getD_eq_getD_getElem?, absent]

/-- A list that holds something is there. -/
theorem lt_of_mem_items {v : Value} (member : v ∈ (h.items id).toList) : id < h.lists.size := by
  by_contra absent
  simp [items_of_le (Nat.le_of_not_lt absent)] at member

/-- A map that holds something is there. -/
theorem lt_of_mem_entries {e : String × Value} (member : e ∈ (h.entries id).entries) :
    id < h.maps.size := by
  by_contra absent
  simp [entries_of_le (Nat.le_of_not_lt absent)] at member

/-- The second value stands in the container that the first one is. -/
inductive Part (h : Heap) : Value → Value → Prop
  | item {id : Nat} {v : Value} (member : v ∈ (h.items id).toList) : Part h (.list id) v
  | value {id : Nat} {e : String × Value} (member : e ∈ (h.entries id).entries) :
    Part h (.map id) e.2

/-- No map of the heap has two entries of one name. -/
def Distinct (h : Heap) : Prop :=
  ∀ id, (h.entries id).Distinct

/-- The containers of a heap. -/
def refs (h : Heap) : Finset Ref :=
  (Finset.range h.lists.size).image .list ∪ (Finset.range h.maps.size).image .map

@[simp] theorem list_mem_refs : Ref.list id ∈ h.refs ↔ id < h.lists.size := by
  simp [refs]

@[simp] theorem map_mem_refs : Ref.map id ∈ h.refs ↔ id < h.maps.size := by
  simp [refs]

theorem card_refs_le (h : Heap) : h.refs.card ≤ h.size := by
  refine (Finset.card_union_le _ _).trans (Nat.add_le_add ?_ ?_)
  · exact Finset.card_image_le.trans (by simp)
  · exact Finset.card_image_le.trans (by simp)

/-- The pairs of lists and the pairs of maps of a heap. -/
def pairs (h : Heap) : Finset (Ref × Ref) :=
  (Finset.range h.lists.size ×ˢ Finset.range h.lists.size).image (Prod.map .list .list) ∪
    (Finset.range h.maps.size ×ˢ Finset.range h.maps.size).image (Prod.map .map .map)

@[simp] theorem lists_mem_pairs {a b : Nat} :
    (Ref.list a, Ref.list b) ∈ h.pairs ↔ a < h.lists.size ∧ b < h.lists.size := by
  simp [pairs]

@[simp] theorem maps_mem_pairs {a b : Nat} :
    (Ref.map a, Ref.map b) ∈ h.pairs ↔ a < h.maps.size ∧ b < h.maps.size := by
  simp [pairs]

theorem card_pairs_le (h : Heap) :
    h.pairs.card ≤ h.lists.size * h.lists.size + h.maps.size * h.maps.size := by
  refine (Finset.card_union_le _ _).trans (Nat.add_le_add ?_ ?_)
  · exact Finset.card_image_le.trans (by simp)
  · exact Finset.card_image_le.trans (by simp)

end Heap

end Polyglot
