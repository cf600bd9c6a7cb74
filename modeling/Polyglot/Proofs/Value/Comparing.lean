import Polyglot.Proofs.Value.Containers
import Polyglot.Value.Equality

/-!
# Comparing values

The rules by which two values are compared, without any bound on how deep the comparison goes. A
derivation is finite, so a comparison that these rules answer comes to an end. Comparing up to the
number of pairs of containers is comparing by these rules: pairs that are being compared are not
gone into again, and no more pairs than there are can be open at once.
-/

namespace Polyglot

/-- Both values are null, booleans, texts, numbers, lists or maps. -/
def Value.comparable : Value → Value → Bool
  | .null, .null | .bool _, .bool _ | .text _, .text _ | .list _, .list _ | .map _, .map _ => true
  | a, b => a.isNumber && b.isNumber

namespace Heap

/-- Comparing two values while `pairs` are being compared gives an answer. What the parts of two
containers are compared to is given by `answer`. -/
inductive Compares (h : Heap) : List (Ref × Ref) → Value → Value → Bool → Prop
  | null (pairs) : Compares h pairs .null .null true
  | bool (pairs) (a b : Bool) : Compares h pairs (.bool a) (.bool b) (a == b)
  | text (pairs) (a b : String) : Compares h pairs (.text a) (.text b) (a == b)
  | numbers {pairs a b x y} (left : a.toFloat? = some x) (right : b.toFloat? = some y) :
    Compares h pairs a b (x == y)
  | differ {pairs a b} (kinds : a.comparable b = false) : Compares h pairs a b false
  | knownLists {pairs a b} (known : a = b ∨ (.list a, .list b) ∈ pairs) :
    Compares h pairs (.list a) (.list b) true
  | lists {pairs a b} (new : ¬(a = b ∨ (.list a, .list b) ∈ pairs)) (answer : Value → Value → Bool)
    (each : ∀ p ∈ (h.items a).toList.zip (h.items b).toList,
      Compares h ((.list a, .list b) :: pairs) p.1 p.2 (answer p.1 p.2)) :
    Compares h pairs (.list a) (.list b)
      ((h.items a).size == (h.items b).size &&
        ((h.items a).toList.zip (h.items b).toList).all fun p => answer p.1 p.2)
  | knownMaps {pairs a b} (known : a = b ∨ (.map a, .map b) ∈ pairs) :
    Compares h pairs (.map a) (.map b) true
  | maps {pairs a b} (new : ¬(a = b ∨ (.map a, .map b) ∈ pairs)) (answer : Value → Value → Bool)
    (each : ∀ e ∈ (h.entries a).entries, ∀ w, (h.entries b).get? e.1 = some w →
      Compares h ((.map a, .map b) :: pairs) e.2 w (answer e.2 w)) :
    Compares h pairs (.map a) (.map b)
      ((h.entries a).size == (h.entries b).size &&
        (h.entries a).entries.all fun e => ((h.entries b).get? e.1).any (answer e.2))

variable {h : Heap} {pairs : List (Ref × Ref)} {n a b : Nat}

/-! ## Comparing up to a depth -/

theorem equalUpTo_knownLists (known : a = b ∨ (.list a, .list b) ∈ pairs) :
    h.equalUpTo n pairs (.list a) (.list b) = true := by
  rcases known with same | member <;> cases n <;> simp [equalUpTo, *]

theorem equalUpTo_knownMaps (known : a = b ∨ (.map a, .map b) ∈ pairs) :
    h.equalUpTo n pairs (.map a) (.map b) = true := by
  rcases known with same | member <;> cases n <;> simp [equalUpTo, *]

theorem equalUpTo_lists (new : ¬(a = b ∨ (.list a, .list b) ∈ pairs)) :
    h.equalUpTo (n + 1) pairs (.list a) (.list b) =
      ((h.items a).size == (h.items b).size &&
        ((h.items a).toList.zip (h.items b).toList).all fun p =>
          h.equalUpTo n ((.list a, .list b) :: pairs) p.1 p.2) := by
  have apart : (a == b) = false := by simp_all
  simp_all [equalUpTo]

theorem equalUpTo_maps (new : ¬(a = b ∨ (.map a, .map b) ∈ pairs)) :
    h.equalUpTo (n + 1) pairs (.map a) (.map b) =
      ((h.entries a).size == (h.entries b).size &&
        (h.entries a).entries.all fun e =>
          ((h.entries b).get? e.1).any (h.equalUpTo n ((.map a, .map b) :: pairs) e.2)) := by
  have apart : (a == b) = false := by simp_all
  have closed : (.map a, .map b) ∉ pairs := by simp_all
  simp only [equalUpTo, apart, Bool.false_or, List.contains_eq_mem, closed, decide_false]
  congr 2
  funext e
  cases (h.entries b).get? e.1 <;> rfl

/-- With as much depth as there are pairs that can still be opened, the depth plays no part. -/
theorem compares_equalUpTo (enough : room h.pairs pairs < n) (v w : Value) :
    h.Compares pairs v w (h.equalUpTo n pairs v w) := by
  induction n generalizing pairs v w with
  | zero => omega
  | succ n ih =>
    cases v with
    | null =>
      cases w with
      | null => exact .null pairs
      | _ => exact .differ rfl
    | bool a =>
      cases w with
      | bool b => exact .bool pairs a b
      | _ => exact .differ rfl
    | text a =>
      cases w with
      | text b => exact .text pairs a b
      | _ => exact .differ rfl
    | int a =>
      cases w with
      | int b => exact .numbers rfl rfl
      | float b => exact .numbers rfl rfl
      | _ => exact .differ rfl
    | float a =>
      cases w with
      | int b => exact .numbers rfl rfl
      | float b => exact .numbers rfl rfl
      | _ => exact .differ rfl
    | list a =>
      cases w with
      | list b =>
        by_cases known : a = b ∨ (.list a, .list b) ∈ pairs
        · rw [equalUpTo_knownLists known]
          exact .knownLists known
        · rw [equalUpTo_lists known]
          refine .lists known (h.equalUpTo n ((.list a, .list b) :: pairs)) ?_
          intro p member
          obtain ⟨left, right⟩ := List.of_mem_zip member
          have opened : room h.pairs ((.list a, .list b) :: pairs) < room h.pairs pairs :=
            room_cons_lt (lists_mem_pairs.2 ⟨lt_of_mem_items left, lt_of_mem_items right⟩)
              fun member => known (.inr member)
          exact ih (by omega) p.1 p.2
      | _ => exact .differ rfl
    | map a =>
      cases w with
      | map b =>
        by_cases known : a = b ∨ (.map a, .map b) ∈ pairs
        · rw [equalUpTo_knownMaps known]
          exact .knownMaps known
        · rw [equalUpTo_maps known]
          refine .maps known (h.equalUpTo n ((.map a, .map b) :: pairs)) ?_
          intro e member w found
          have right := lt_of_mem_entries (OrderedMap.mem_of_find? found)
          have opened : room h.pairs ((.map a, .map b) :: pairs) < room h.pairs pairs :=
            room_cons_lt (maps_mem_pairs.2 ⟨lt_of_mem_entries member, right⟩)
              fun member => known (.inr member)
          exact ih (by omega) e.2 w
      | _ => exact .differ rfl

theorem compares_equal (h : Heap) (v w : Value) : h.Compares [] v w (h.equal v w) := by
  have few := (room_nil_le h.pairs).trans h.card_pairs_le
  exact compares_equalUpTo (Nat.lt_succ_of_le few) v w

end Heap

end Polyglot
