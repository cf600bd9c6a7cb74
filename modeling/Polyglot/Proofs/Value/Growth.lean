import Polyglot.Proofs.Value.Containers
import Polyglot.Value.Operators

/-!
# How containers grow

Whatever is done to a heap, a list keeps its length and a map its names in their order; a map may
get further names, at the end. A heap is closed if what stands in its containers is there and no
map has a name twice. Making a container and writing an indexed value keep a heap closed, if what
they are given is there.
-/

namespace Polyglot

/-! ## Values that are there -/

namespace Value

/-- The value is a list or a map. -/
def isContainer : Value → Bool
  | list _ | map _ => true
  | _ => false

end Value

namespace Heap

/-- A value that is no container, or a container of the heap. -/
def Known (h : Heap) : Value → Prop
  | .list id => id < h.lists.size
  | .map id => id < h.maps.size
  | _ => True

theorem known_of_scalar {h : Heap} {v : Value} (scalar : v.isContainer = false) :
    h.Known v := by
  cases v <;> simp_all [Known, Value.isContainer]

theorem exists_ref_of_not_known {h : Heap} {v : Value} (unknown : ¬ h.Known v) :
    ∃ r : Ref, v = r.value := by
  cases v with
  | list id => exact ⟨.list id, rfl⟩
  | map id => exact ⟨.map id, rfl⟩
  | _ => exact absurd trivial unknown

/-- Values that are all there. -/
def KnownAll (h : Heap) (vs : Array Value) : Prop :=
  ∀ v ∈ vs, h.Known v

@[simp] theorem knownAll_empty (h : Heap) : h.KnownAll #[] := by
  simp [KnownAll]

theorem KnownAll.push {h : Heap} {vs : Array Value} (all : h.KnownAll vs) {v : Value}
    (known : h.Known v) : h.KnownAll (vs.push v) := by
  intro w member
  rcases Array.mem_push.1 member with old | new
  · exact all w old
  · exact new ▸ known

/-- A value that is there in the second heap and is not in the first. -/
def Fresh (h h' : Heap) (v : Value) : Prop :=
  h'.Known v ∧ ¬ h.Known v

/-! ## Growth -/

/-- What is in the first heap is in the second: every list with its length, every map with its
names in their order, perhaps with others after them. -/
structure Grows (h h' : Heap) : Prop where
  lists : h.lists.size ≤ h'.lists.size
  maps : h.maps.size ≤ h'.maps.size
  lengths : ∀ id < h.lists.size, (h'.items id).size = (h.items id).size
  keys : ∀ id < h.maps.size, (h.entries id).keys <+: (h'.entries id).keys

namespace Grows

variable {h h' : Heap}

theorem refl (h : Heap) : h.Grows h :=
  ⟨Nat.le_refl _, Nat.le_refl _, fun _ _ => rfl, fun _ _ => List.prefix_rfl⟩

theorem trans {h₁ h₂ h₃ : Heap} (first : h₁.Grows h₂) (second : h₂.Grows h₃) : h₁.Grows h₃ where
  lists := first.lists.trans second.lists
  maps := first.maps.trans second.maps
  lengths id there := by
    rw [second.lengths id (there.trans_le first.lists), first.lengths id there]
  keys id there := (first.keys id there).trans (second.keys id (there.trans_le first.maps))

theorem known (grows : h.Grows h') {v : Value} (known : h.Known v) : h'.Known v := by
  cases v with
  | list id => exact Nat.lt_of_lt_of_le known grows.lists
  | map id => exact Nat.lt_of_lt_of_le known grows.maps
  | _ => trivial

theorem knownAll (grows : h.Grows h') {vs : Array Value} (known : h.KnownAll vs) : h'.KnownAll vs :=
  fun v member => grows.known (known v member)

/-- Where no name comes twice later, none did before. -/
theorem distinct (grows : h.Grows h') (later : h'.Distinct) : h.Distinct := by
  intro id
  by_cases there : id < h.maps.size
  · exact (later id).sublist (grows.keys id there).sublist
  · rw [entries_of_le (Nat.le_of_not_lt there)]
    exact OrderedMap.distinct_empty

end Grows

/-! ## Making and writing containers -/

section Steps

variable {h : Heap} {id : Nat} {v : Value}

theorem items_newList (h : Heap) (items : Array Value) (id : Nat) :
    (h.newList items).2.items id = if id = h.lists.size then items else h.items id := by
  simp only [newList, Heap.items, Array.getD_eq_getD_getElem?, Array.getElem?_push]
  by_cases new : id = h.lists.size <;> simp [new]

theorem entries_newMap (h : Heap) (entries : OrderedMap Value) (id : Nat) :
    (h.newMap entries).2.entries id = if id = h.maps.size then entries else h.entries id := by
  simp only [newMap, Heap.entries, Array.getD_eq_getD_getElem?, Array.getElem?_push]
  by_cases new : id = h.maps.size <;> simp [new]

theorem items_modifyList (h : Heap) (id other : Nat) (f : Array Value → Array Value) :
    (h.modifyList id f).items other = h.items other ∨
      (h.modifyList id f).items other = f (h.items other) := by
  simp only [Heap.items, modifyList, Array.getD_eq_getD_getElem?, Array.getElem?_modify]
  by_cases same : id = other
  · cases h.lists[other]? <;> simp [same]
  · simp [same]

theorem entries_modifyMap (h : Heap) (id other : Nat) (f : OrderedMap Value → OrderedMap Value) :
    (h.modifyMap id f).entries other = h.entries other ∨
      (h.modifyMap id f).entries other = f (h.entries other) := by
  simp only [Heap.entries, modifyMap, Array.getD_eq_getD_getElem?, Array.getElem?_modify]
  by_cases same : id = other
  · cases h.maps[other]? <;> simp [same]
  · simp [same]

theorem items_modifyList_self {f : Array Value → Array Value} (there : id < h.lists.size) :
    (h.modifyList id f).items id = f (h.items id) := by
  simp [Heap.items, modifyList, Array.getD_eq_getD_getElem?, Array.getElem_modify, there]

theorem items_modifyList_of_ne {other : Nat} {f : Array Value → Array Value} (apart : id ≠ other) :
    (h.modifyList id f).items other = h.items other := by
  simp [Heap.items, modifyList, Array.getD_eq_getD_getElem?, Array.getElem?_modify, apart]

theorem entries_modifyMap_self {f : OrderedMap Value → OrderedMap Value}
    (there : id < h.maps.size) : (h.modifyMap id f).entries id = f (h.entries id) := by
  simp [Heap.entries, modifyMap, Array.getD_eq_getD_getElem?, Array.getElem_modify, there]

theorem entries_modifyMap_of_ne {other : Nat} {f : OrderedMap Value → OrderedMap Value}
    (apart : id ≠ other) : (h.modifyMap id f).entries other = h.entries other := by
  simp [Heap.entries, modifyMap, Array.getD_eq_getD_getElem?, Array.getElem?_modify, apart]

/-- What an indexed write does: it replaces an item of a list, or puts a value into a map. -/
theorem indexSet_cases {h' : Heap} {owner key : Value} (written : h.indexSet owner key v = .ok h') :
    (∃ id i, h' = h.modifyList id fun items => items.setIfInBounds i v) ∨
      ∃ id name, h' = h.modifyMap id fun entries => entries.insert name v := by
  unfold indexSet at written
  split at written
  · split at written
    · cases written
    · dsimp only at written
      split at written <;> cases written
      exact .inl ⟨_, _, rfl⟩
  · cases written
    exact .inr ⟨_, _, rfl⟩
  · cases written

namespace Grows

theorem newList (h : Heap) (items : Array Value) : h.Grows (h.newList items).2 where
  lists := by simp [Heap.newList]
  maps := Nat.le_refl _
  lengths id there := by rw [items_newList, if_neg (Nat.ne_of_lt there)]
  keys _ _ := List.prefix_rfl

theorem newMap (h : Heap) (entries : OrderedMap Value) : h.Grows (h.newMap entries).2 where
  lists := Nat.le_refl _
  maps := by simp [Heap.newMap]
  lengths _ _ := rfl
  keys id there := by simp [entries_newMap, Nat.ne_of_lt there]

theorem indexSet {h h' : Heap} {owner key : Value} (written : h.indexSet owner key v = .ok h') :
    h.Grows h' := by
  rcases indexSet_cases written with ⟨id, i, result⟩ | ⟨id, name, result⟩
  · subst result
    refine ⟨by simp [modifyList], Nat.le_refl _, ?_, fun _ _ => List.prefix_rfl⟩
    intro other _
    rcases h.items_modifyList id other fun items => items.setIfInBounds i v with same | changed
    · rw [same]
    · simp [changed]
  · subst result
    refine ⟨Nat.le_refl _, by simp [modifyMap], fun _ _ => rfl, ?_⟩
    intro other _
    rcases h.entries_modifyMap id other fun entries => entries.insert name v with same | changed
    · simp [same]
    · rw [changed]
      exact OrderedMap.keys_prefix_insert _ name v

end Grows

/-! ## Closed heaps -/

/-- What stands in a container is there, and no map has a name twice. -/
structure Closed (h : Heap) : Prop where
  items : ∀ id, h.KnownAll (h.items id)
  values : ∀ id, ∀ e ∈ (h.entries id).entries, h.Known e.2
  distinct : h.Distinct

namespace Closed

theorem part (closed : h.Closed) {c : Value} (part : h.Part c v) : h.Known v := by
  cases part with
  | item member => exact closed.items _ _ (by simpa using member)
  | value member => exact closed.values _ _ member

theorem listItems? (closed : h.Closed) {items : Array Value}
    (found : h.listItems? v = some items) : h.KnownAll items := by
  cases v with
  | list id =>
    cases found
    exact closed.items id
  | _ => cases found

theorem newList (closed : h.Closed) {items : Array Value} (known : h.KnownAll items) :
    (h.newList items).2.Closed where
  items id v member := by
    apply (Grows.newList h items).known
    rw [items_newList] at member
    by_cases new : id = h.lists.size
    · exact known v (by simpa [new] using member)
    · exact closed.items id v (by simpa [new] using member)
  values id e member := (Grows.newList h items).known (closed.values id e member)
  distinct := closed.distinct

theorem newMap (closed : h.Closed) {entries : OrderedMap Value} (distinct : entries.Distinct)
    (known : ∀ e ∈ entries.entries, h.Known e.2) : (h.newMap entries).2.Closed where
  items id v member := (Grows.newMap h entries).known (closed.items id v member)
  values id e member := by
    apply (Grows.newMap h entries).known
    rw [entries_newMap] at member
    by_cases new : id = h.maps.size
    · exact known e (by simpa [new] using member)
    · exact closed.values id e (by simpa [new] using member)
  distinct id := by
    rw [entries_newMap]
    by_cases new : id = h.maps.size
    · simpa [new] using distinct
    · simpa [new] using closed.distinct id

theorem indexSet {h' : Heap} {owner key : Value} (closed : h.Closed) (known : h.Known v)
    (written : h.indexSet owner key v = .ok h') : h'.Closed := by
  have grows := Grows.indexSet written
  rcases indexSet_cases written with ⟨id, i, result⟩ | ⟨id, name, result⟩
  · refine ⟨?_, ?_, ?_⟩
    · intro other w member
      apply grows.known
      rw [result] at member
      rcases h.items_modifyList id other fun items => items.setIfInBounds i v with same | changed
      · rw [same] at member
        exact closed.items other w member
      · rw [changed] at member
        rcases Array.mem_or_eq_of_mem_setIfInBounds member with old | new
        · exact closed.items other w old
        · exact new ▸ known
    · intro other e member
      rw [result] at member
      exact grows.known (closed.values other e member)
    · rw [result]
      exact closed.distinct
  · refine ⟨?_, ?_, ?_⟩
    · intro other w member
      rw [result] at member
      exact grows.known (closed.items other w member)
    · intro other e member
      apply grows.known
      rw [result] at member
      rcases h.entries_modifyMap id other fun entries => entries.insert name v with same | changed
      · rw [same] at member
        exact closed.values other e member
      · rw [changed] at member
        rcases OrderedMap.mem_insert member with new | old
        · exact new ▸ known
        · exact closed.values other e old
    · intro other
      rw [result]
      rcases h.entries_modifyMap id other fun entries => entries.insert name v with same | changed
      · rw [same]
        exact closed.distinct other
      · rw [changed]
        exact (closed.distinct other).insert name v

/-- What is read by an index is there. -/
theorem indexGet (closed : h.Closed) {owner key : Value} (read : h.indexGet owner key = .ok v) :
    h.Known v := by
  unfold Heap.indexGet at read
  split at read
  · rename_i id
    cases read
    cases slot : (slot? key (h.items id).size).bind fun i => (h.items id)[i]? with
    | none => trivial
    | some w =>
      obtain ⟨i, _, found⟩ := Option.bind_eq_some_iff.1 slot
      exact closed.items id w (Array.mem_of_getElem? found)
  · rename_i id
    cases read
    cases found : (h.entries id).get? (h.display key) with
    | none => trivial
    | some w => exact closed.values id _ (OrderedMap.mem_of_find? found)
  · cases read

end Closed

end Steps

end Heap

/-! ## Operators give no containers -/

namespace Value

theorem isContainer_of_arithmetic {op : BinaryOp} {onInts : Int64 → Int64 → Int64}
    {onFloats : Float → Float → Float} {a b v : Value}
    (result : arithmetic op onInts onFloats a b = .ok v) : v.isContainer = false := by
  unfold arithmetic at result
  split at result
  · cases result; rfl
  · split at result <;> cases result
    rfl

theorem isContainer_of_division {op : BinaryOp} {onInts : Int64 → Int64 → Int64}
    {onFloats : Float → Float → Float} {a b v : Value}
    (result : division op onInts onFloats a b = .ok v) : v.isContainer = false := by
  unfold division at result
  split at result
  · cases result
  · exact isContainer_of_arithmetic result

theorem isContainer_of_comparison {op : BinaryOp} {holds : Float → Float → Bool} {a b v : Value}
    (result : comparison op holds a b = .ok v) : v.isContainer = false := by
  unfold comparison at result
  split at result <;> cases result
  rfl

theorem isContainer_of_repeated {s : String} {number v : Value}
    (result : repeated s number = .ok v) : v.isContainer = false := by
  unfold repeated at result
  split at result
  · cases result; rfl
  · split at result
    · cases result
    · split at result
      · cases result
      · split at result <;> cases result
        rfl

end Value

namespace Heap

open Value

theorem isContainer_of_multiply {a b v : Value} (result : multiply a b = .ok v) :
    v.isContainer = false := by
  unfold multiply at result
  split at result
  · split at result
    · exact isContainer_of_repeated result
    · cases result
  · split at result
    · exact isContainer_of_repeated result
    · cases result
  · exact isContainer_of_arithmetic result

theorem isContainer_of_binary {h : Heap} {op : BinaryOp} {a b v : Value}
    (result : h.binary op a b = .ok v) : v.isContainer = false := by
  cases op with
  | add =>
    simp only [binary, add] at result
    split at result
    · exact isContainer_of_arithmetic result
    · cases result; rfl
  | sub => exact isContainer_of_arithmetic result
  | mul => exact isContainer_of_multiply result
  | div | mod => exact isContainer_of_division result
  | eq | ne => cases result; rfl
  | lt | gt | le | ge => exact isContainer_of_comparison result

theorem isContainer_of_unary {op : UnaryOp} {v w : Value} (result : unary op v = .ok w) :
    w.isContainer = false := by
  unfold unary at result
  split at result <;> cases result <;> rfl

end Heap

end Polyglot
