import Mathlib.Data.List.Forall2
import Polyglot.Proofs.Value.Comparing
import Polyglot.Proofs.Value.Doubles

/-!
# Equality of values

Two values are equal exactly if some relation between values holds of them under which related
values are alike: equal scalars, the very same container, lists whose items are related place by
place, or maps of the same names whose values are related name by name. So values that hold
themselves are equal if no way down from them ever shows a difference. Equality is symmetric and
transitive, and every value but a double that is not a number is equal to itself.
-/

namespace Polyglot

namespace OrderedMap

variable {α : Type} {m k : OrderedMap α}

/-- Of two equally large maps, one has all names of the other only if both have the same. -/
theorem mem_keys_iff_of_subset (distinct : m.Distinct) (size : m.size = k.size)
    (within : m.keys ⊆ k.keys) (name : String) : name ∈ m.keys ↔ name ∈ k.keys := by
  have lengths : k.keys.length ≤ m.keys.length := by
    simp only [keys, List.length_map]
    exact size.ge
  have same : m.keys.Perm k.keys :=
    (List.subperm_of_subset distinct within).perm_of_length_le lengths
  exact same.mem_iff

theorem size_eq_of_mem_keys_iff (left : m.Distinct) (right : k.Distinct)
    (names : ∀ name, name ∈ m.keys ↔ name ∈ k.keys) : m.size = k.size := by
  have same : m.keys.Perm k.keys := (List.perm_ext_iff_of_nodup left right).2 names
  simpa [keys, size] using same.length_eq

end OrderedMap

namespace Heap

/-! ## Alike values -/

/-- Two values are alike where their parts need only be related by `R`. -/
inductive Alike (h : Heap) (R : Value → Value → Prop) : Value → Value → Prop
  | null : Alike h R .null .null
  | bool (b : Bool) : Alike h R (.bool b) (.bool b)
  | text (s : String) : Alike h R (.text s) (.text s)
  | numbers {a b x y} (left : a.toFloat? = some x) (right : b.toFloat? = some y)
    (equal : (x == y) = true) : Alike h R a b
  | sameList (id : Nat) : Alike h R (.list id) (.list id)
  | sameMap (id : Nat) : Alike h R (.map id) (.map id)
  | lists {a b} (items : List.Forall₂ R (h.items a).toList (h.items b).toList) :
    Alike h R (.list a) (.list b)
  | maps {a b} (names : ∀ name, name ∈ (h.entries a).keys ↔ name ∈ (h.entries b).keys)
    (values : ∀ name v w, (h.entries a).get? name = some v → (h.entries b).get? name = some w →
      R v w) :
    Alike h R (.map a) (.map b)

/-- Some relation under which related values are alike holds of two values. -/
def Bisimilar (h : Heap) (a b : Value) : Prop :=
  ∃ R : Value → Value → Prop, R a b ∧ ∀ v w, R v w → h.Alike R v w

/-- The same, where pairs related by `P` count as alike. -/
def BisimilarGiven (h : Heap) (P : Value → Value → Prop) (a b : Value) : Prop :=
  ∃ R : Value → Value → Prop, (R a b ∨ P a b) ∧
    ∀ v w, R v w → h.Alike (fun v w => R v w ∨ P v w) v w

variable {h : Heap} {R S P : Value → Value → Prop} {a b c : Value}

theorem forall₂_comp {l₁ l₂ l₃ : List Value} (first : List.Forall₂ R l₁ l₂)
    (second : List.Forall₂ S l₂ l₃) :
    List.Forall₂ (fun v w => ∃ u, R v u ∧ S u w) l₁ l₃ := by
  induction first generalizing l₃ with
  | nil =>
    cases second
    exact .nil
  | cons here _ ih =>
    cases second with
    | cons there rest => exact .cons ⟨_, here, there⟩ (ih rest)

namespace Alike

theorem mono (weaker : ∀ v w, R v w → S v w) (alike : h.Alike R a b) : h.Alike S a b := by
  cases alike with
  | null => exact .null
  | bool b => exact .bool b
  | text s => exact .text s
  | numbers left right equal => exact .numbers left right equal
  | sameList id => exact .sameList id
  | sameMap id => exact .sameMap id
  | lists items => exact .lists (items.imp weaker)
  | maps names values =>
    exact .maps names fun name v w left right => weaker v w (values name v w left right)

theorem comparable (alike : h.Alike R a b) : a.comparable b = true := by
  cases alike with
  | numbers left right =>
    cases a <;> cases b <;> simp_all [Value.toFloat?, Value.comparable, Value.isNumber]
  | _ => rfl

theorem symm (alike : h.Alike R a b) : h.Alike (fun v w => R w v) b a := by
  cases alike with
  | null => exact .null
  | bool b => exact .bool b
  | text s => exact .text s
  | numbers left right equal => exact .numbers right left (Binary64.beq_symm equal)
  | sameList id => exact .sameList id
  | sameMap id => exact .sameMap id
  | lists items => exact .lists items.flip
  | maps names values =>
    exact .maps (fun name => (names name).symm) fun name v w left right =>
      values name w v right left

/-- A container alike to itself says nothing about its parts, so a chain of two may go on from
either link alone. -/
theorem trans (first : h.Alike R a b) (second : h.Alike S b c) :
    h.Alike (fun v w => R v w ∨ S v w ∨ ∃ u, R v u ∧ S u w) a c := by
  cases first with
  | null => exact second.mono fun _ _ related => .inr (.inl related)
  | bool b => exact second.mono fun _ _ related => .inr (.inl related)
  | text s => exact second.mono fun _ _ related => .inr (.inl related)
  | sameList id => exact second.mono fun _ _ related => .inr (.inl related)
  | sameMap id => exact second.mono fun _ _ related => .inr (.inl related)
  | numbers left middle equal =>
    cases second with
    | numbers middle' right equal' =>
      rw [middle] at middle'
      cases middle'
      exact .numbers left right (Binary64.beq_trans equal equal')
    | _ => cases middle
  | @lists i j items =>
    cases second with
    | numbers middle => cases middle
    | sameList => exact .lists (items.imp fun _ _ related => .inl related)
    | lists items' =>
      have both := forall₂_comp items items'
      exact .lists (both.imp fun _ _ related => .inr (.inr related))
  | @maps i j names values =>
    cases second with
    | numbers middle => cases middle
    | sameMap =>
      exact .maps names fun name v w left right => .inl (values name v w left right)
    | maps names' values' =>
      refine .maps (fun name => (names name).trans (names' name)) ?_
      intro name v w left right
      obtain ⟨u, middle⟩ :=
        OrderedMap.exists_of_mem_keys ((names name).1 (OrderedMap.mem_keys_of_get? left))
      exact .inr (.inr ⟨u, values name v u left middle, values' name u w middle right⟩)

end Alike

/-! ## The largest relation under which related values are alike -/

theorem Bisimilar.alike (related : h.Bisimilar a b) : h.Alike h.Bisimilar a b := by
  obtain ⟨R, here, alike⟩ := related
  exact (alike a b here).mono fun v w there => ⟨R, there, alike⟩

theorem Bisimilar.symm (related : h.Bisimilar a b) : h.Bisimilar b a :=
  ⟨fun v w => h.Bisimilar w v, related, fun _ _ there => there.alike.symm⟩

theorem Bisimilar.trans (first : h.Bisimilar a b) (second : h.Bisimilar b c) :
    h.Bisimilar a c := by
  -- Either link of a chain may be all there is, as for one container met twice.
  refine ⟨fun v w => h.Bisimilar v w ∨ h.Bisimilar v w ∨ ∃ u, h.Bisimilar v u ∧ h.Bisimilar u w,
    .inr (.inr ⟨b, first, second⟩), ?_⟩
  intro v w related
  rcases related with one | one | ⟨u, left, right⟩
  · exact one.alike.mono fun _ _ there => .inl there
  · exact one.alike.mono fun _ _ there => .inl there
  · exact left.alike.trans right.alike

theorem bisimilar_self (number : ∀ x, a = .float x → x.isNaN = false) : h.Bisimilar a a := by
  refine ⟨fun v w => v = a ∧ w = a, ⟨rfl, rfl⟩, ?_⟩
  intro v w same
  obtain ⟨rfl, rfl⟩ := same
  cases w with
  | null => exact .null
  | bool b => exact .bool b
  | text s => exact .text s
  | int n => exact .numbers rfl rfl (Binary64.beq_self_iff.2 (Binary64.isNaN_ofInt n.toInt))
  | float x => exact .numbers rfl rfl (Binary64.beq_self_iff.2 (number x rfl))
  | list id => exact .sameList id
  | map id => exact .sameMap id

/-! ## Assumptions -/

theorem BisimilarGiven.alike (related : h.BisimilarGiven P a b) :
    h.Alike (h.BisimilarGiven P) a b ∨ P a b := by
  obtain ⟨R, here, alike⟩ := related
  rcases here with here | given
  · exact .inl ((alike a b here).mono fun v w there => ⟨R, there, alike⟩)
  · exact .inr given

/-- A pair may be assumed alike while its own parts are looked at. -/
theorem BisimilarGiven.of_alike
    (alike : h.Alike (h.BisimilarGiven fun v w => (v = a ∧ w = b) ∨ P v w) a b) :
    h.BisimilarGiven P a b := by
  refine ⟨fun v w => h.Alike (h.BisimilarGiven fun v w => (v = a ∧ w = b) ∨ P v w) v w,
    .inl alike, ?_⟩
  intro v w there
  refine there.mono fun x y related => ?_
  rcases related.alike with parts | ⟨rfl, rfl⟩ | given
  · exact .inl parts
  · exact .inl alike
  · exact .inr given

/-- Two values are containers that are being compared. -/
def Opened (pairs : List (Ref × Ref)) (v w : Value) : Prop :=
  ∃ p ∈ pairs, v = p.1.value ∧ w = p.2.value

theorem opened_cons (p : Ref × Ref) (pairs : List (Ref × Ref)) :
    Opened (p :: pairs) = fun v w => (v = p.1.value ∧ w = p.2.value) ∨ Opened pairs v w := by
  funext v w
  simp [Opened]

/-! ## What comparing finds out -/

variable {pairs : List (Ref × Ref)} {r : Bool}

/-- Values that compare as equal are bisimilar if the pairs being compared are. -/
theorem Compares.bisimilar (distinct : h.Distinct) (compared : h.Compares pairs a b r)
    (equal : r = true) : h.BisimilarGiven (Opened pairs) a b := by
  induction compared with
  | null => exact .of_alike .null
  | bool pairs a b =>
    rw [beq_iff_eq] at equal
    subst equal
    exact .of_alike (.bool a)
  | text pairs a b =>
    rw [beq_iff_eq] at equal
    subst equal
    exact .of_alike (.text a)
  | numbers left right => exact .of_alike (.numbers left right equal)
  | differ => cases equal
  | knownLists known =>
    rcases known with rfl | member
    · exact .of_alike (.sameList _)
    · exact ⟨fun _ _ => False, .inr ⟨_, member, rfl, rfl⟩, fun _ _ => False.elim⟩
  | knownMaps known =>
    rcases known with rfl | member
    · exact .of_alike (.sameMap _)
    · exact ⟨fun _ _ => False, .inr ⟨_, member, rfl, rfl⟩, fun _ _ => False.elim⟩
  | lists new answer each ih =>
    simp only [Bool.and_eq_true, beq_iff_eq, List.all_eq_true] at equal
    refine .of_alike (.lists (List.forall₂_iff_zip.2 ⟨by simpa using equal.1, ?_⟩))
    intro v w member
    have part := ih (v, w) member (equal.2 (v, w) member)
    rwa [opened_cons] at part
  | @maps pairs i j new answer each ih =>
    simp only [Bool.and_eq_true, beq_iff_eq, List.all_eq_true, Option.any_eq_true] at equal
    obtain ⟨sizes, values⟩ := equal
    have within : (h.entries i).keys ⊆ (h.entries j).keys := by
      intro name member
      obtain ⟨e, there, rfl⟩ := List.mem_map.1 member
      obtain ⟨w, found, -⟩ := values e there
      exact OrderedMap.mem_keys_of_get? found
    refine .of_alike (.maps (OrderedMap.mem_keys_iff_of_subset (distinct i) sizes within) ?_)
    intro name v w left right
    have there := OrderedMap.mem_of_find? left
    obtain ⟨w', found, answered⟩ := values (name, v) there
    rw [right] at found
    cases found
    have part := ih (name, v) there w right answered
    rwa [opened_cons] at part

/-- Bisimilar values compare as equal, whatever pairs are being compared. -/
theorem Compares.eq_true (distinct : h.Distinct) (compared : h.Compares pairs a b r)
    (related : h.Bisimilar a b) : r = true := by
  induction compared with
  | null => rfl
  | bool pairs a b =>
    cases related.alike with
    | bool => simp
    | numbers left => cases left
  | text pairs a b =>
    cases related.alike with
    | text => simp
    | numbers left => cases left
  | numbers left right =>
    cases related.alike with
    | numbers left' right' equal =>
      rw [left] at left'
      rw [right] at right'
      cases left'
      cases right'
      exact equal
    | _ => cases left
  | differ kinds =>
    rw [related.alike.comparable] at kinds
    cases kinds
  | knownLists => rfl
  | knownMaps => rfl
  | lists new answer each ih =>
    cases related.alike with
    | numbers left => cases left
    | sameList => exact absurd (.inl rfl) new
    | lists items =>
      simp only [Bool.and_eq_true, beq_iff_eq, List.all_eq_true]
      refine ⟨by simpa using items.length_eq, ?_⟩
      intro p member
      exact ih p member (List.forall₂_zip items member)
  | @maps pairs i j new answer each ih =>
    cases related.alike with
    | numbers left => cases left
    | sameMap => exact absurd (.inl rfl) new
    | maps names values =>
      simp only [Bool.and_eq_true, beq_iff_eq, List.all_eq_true, Option.any_eq_true]
      refine ⟨OrderedMap.size_eq_of_mem_keys_iff (distinct i) (distinct j) names, ?_⟩
      intro e member
      have left := OrderedMap.find?_of_mem (distinct i) member
      obtain ⟨w, right⟩ :=
        OrderedMap.exists_of_mem_keys ((names e.1).1 (OrderedMap.mem_keys_of_get? left))
      exact ⟨w, right, ih e member w right (values e.1 e.2 w left right)⟩

theorem bisimilarGiven_nil : h.BisimilarGiven (Opened []) a b ↔ h.Bisimilar a b := by
  simp [BisimilarGiven, Bisimilar, Opened]

theorem Compares.iff_bisimilar (distinct : h.Distinct) (compared : h.Compares [] a b r) :
    r = true ↔ h.Bisimilar a b :=
  ⟨fun equal => bisimilarGiven_nil.1 (compared.bisimilar distinct equal),
    compared.eq_true distinct⟩

theorem equal_iff_bisimilar (distinct : h.Distinct) : h.equal a b = true ↔ h.Bisimilar a b :=
  (h.compares_equal a b).iff_bisimilar distinct

/-- Comparing two values comes to an end, with one answer. They are equal exactly if some relation
under which related values are alike holds of them. Equality is symmetric and transitive, and only
a double that is not a number differs from itself. -/
theorem equal_is_bisimilarity (h : Heap) (distinct : h.Distinct) :
    (∀ a b r, h.Compares [] a b r ↔ h.equal a b = r) ∧
    (∀ a b, h.equal a b = true ↔
      ∃ R : Value → Value → Prop, R a b ∧ ∀ v w, R v w → h.Alike R v w) ∧
    (∀ a b, h.equal a b = h.equal b a) ∧
    (∀ a b c, h.equal a b = true → h.equal b c = true → h.equal a c = true) ∧
    ∀ a, h.equal a a = true ↔ ∀ x, a = .float x → x.isNaN = false := by
  refine ⟨?_, fun a b => equal_iff_bisimilar distinct, ?_, ?_, ?_⟩
  · intro a b r
    constructor
    · intro compared
      have same := (equal_iff_bisimilar distinct).trans (compared.iff_bisimilar distinct).symm
      exact Bool.eq_iff_iff.2 same
    · intro answer
      exact answer ▸ h.compares_equal a b
  · intro a b
    rw [Bool.eq_iff_iff, equal_iff_bisimilar distinct, equal_iff_bisimilar distinct]
    exact ⟨.symm, .symm⟩
  · intro a b c first second
    rw [equal_iff_bisimilar distinct] at *
    exact first.trans second
  · intro a
    rw [equal_iff_bisimilar distinct]
    refine ⟨?_, bisimilar_self⟩
    intro related x number
    subst number
    cases related.alike with
    | numbers left right equal =>
      cases left
      cases right
      exact Binary64.beq_self_iff.1 equal

/-- Two rings of a list and a map, alike but for the order of the names and the type of a number. -/
def rings : Heap where
  lists := #[#[.map 0], #[.map 1]]
  maps := #[⟨[("ring", .list 0), ("n", .int 1)]⟩, ⟨[("n", .float 1.0), ("ring", .list 1)]⟩]

/-- The rings are equal, and so a relation holds of them under which related values are alike. -/
theorem equal_is_bisimilarity_rings : rings.Distinct ∧ rings.equal (.list 0) (.list 1) = true ∧
    rings.equal (.list 1) (.list 0) = true ∧
    ∃ R : Value → Value → Prop, R (.list 0) (.list 1) ∧ ∀ v w, R v w → rings.Alike R v w := by
  have distinct : rings.Distinct := by
    intro id
    rcases id with _ | _ | id
    · exact show List.Nodup _ by decide
    · exact show List.Nodup _ by decide
    · exact List.nodup_nil
  have equal : rings.equal (.list 0) (.list 1) = true := by decide +kernel
  obtain ⟨-, bisimilar, symmetric, -⟩ := equal_is_bisimilarity rings distinct
  exact ⟨distinct, equal, symmetric _ _ ▸ equal, (bisimilar _ _).1 equal⟩

end Heap

end Polyglot
