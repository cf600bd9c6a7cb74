import Polyglot.Proofs.Eval.Outcome
import Polyglot.Proofs.Value.Growth
import Polyglot.Proofs.Value.Truncation

/-!
# Indexed writes

An indexed write puts a value into one slot of one container. A list has a slot where it has an
item; a map has one for every name, and takes the text that the key has before the write. A write
that has no slot to go to is refused, and nothing is changed.
-/

namespace Polyglot

/-! ## What a write does to the entries of a map -/

namespace OrderedMap

variable {α : Type}

/-- Entries into which a value is put under a name: the entry of that name takes the value and stays
where it is, or a new entry comes last. -/
inductive Put (name : String) (value : α) : List (String × α) → List (String × α) → Prop
  | replaced {before after : List (String × α)} {old : α} (first : name ∉ before.map Prod.fst) :
    Put name value (before ++ (name, old) :: after) (before ++ (name, value) :: after)
  | appended {entries : List (String × α)} (new : name ∉ entries.map Prod.fst) :
    Put name value entries (entries ++ [(name, value)])

theorem Put.cons {name : String} {value : α} {entries entries' : List (String × α)}
    {e : String × α} (other : name ≠ e.1) (put : Put name value entries entries') :
    Put name value (e :: entries) (e :: entries') := by
  cases put with
  | @replaced before after old first =>
    have still : name ∉ (e :: before).map Prod.fst := by simpa [other] using first
    exact .replaced still
  | appended new =>
    have still : name ∉ (e :: entries).map Prod.fst := by simpa [other] using new
    exact .appended still

theorem put_upsert (name : String) (value : α) (entries : List (String × α)) :
    Put name value entries (upsert name value entries) := by
  induction entries with
  | nil => exact .appended (by simp)
  | cons e entries ih =>
    obtain ⟨k, v⟩ := e
    by_cases same : k = name
    · rw [upsert, if_pos same, same]
      have none : name ∉ ([] : List (String × α)).map Prod.fst := by simp
      exact .replaced none
    · rw [upsert, if_neg same]
      exact ih.cons (Ne.symm same)

end OrderedMap

/-! ## Keys of lists -/

namespace Value

/-- The fraction that a value is, if it is a number and finite. -/
def fraction? : Value → Option ℚ
  | int n => some n.toInt
  | float x => Binary64.fraction? x
  | _ => none

theorem fraction?_eq_none {key : Value} :
    key.fraction? = none ↔ key.isNumber = false ∨ ∃ x, key = float x ∧ x.isFinite = false := by
  cases key with
  | float x => simp [fraction?, isNumber, Binary64.fraction?_eq_none]
  | _ => simp [fraction?, isNumber]

end Value

namespace Heap

open Binary64 (towardZero)

theorem position?_eq (key : Value) : position? key = key.fraction?.map towardZero := by
  cases key with
  | int n => simp [position?, Value.fraction?]
  | float x => exact Binary64.truncate?_eq x
  | _ => rfl

theorem slot?_eq_some {key : Value} {length i : Nat} :
    slot? key length = some i ↔ ∃ q, key.fraction? = some q ∧ towardZero q = i ∧ i < length := by
  rw [slot?, position?_eq]
  cases key.fraction? with
  | none => simp
  | some q =>
    simp only [Option.map_some, Option.some.injEq, exists_eq_left']
    split <;> simp only [Option.some.injEq, reduceCtorEq, false_iff] <;> omega

/-! ## What a write does to a heap -/

/-- The writes that are refused: to a value that is no container, and to a list under a key that is
no number, is not finite, or names no item when it is rounded towards zero. -/
inductive Refuses (h : Heap) : Value → Value → Prop
  | scalar {owner key : Value} (scalar : owner.isContainer = false) : Refuses h owner key
  | notNumber {id : Nat} {key : Value} (other : key.isNumber = false) : Refuses h (.list id) key
  | notFinite {id : Nat} {x : Float} (special : x.isFinite = false) :
    Refuses h (.list id) (.float x)
  | outside {id : Nat} {key : Value} {q : ℚ} (number : key.fraction? = some q)
    (out : towardZero q < 0 ∨ (h.items id).size ≤ towardZero q) : Refuses h (.list id) key

/-- The one slot of `owner` that differs after `value` is written under `key`, and what is read
there. -/
inductive WroteSlot (h h' : Heap) (value : Value) : Value → Value → Prop
  | item {id i : Nat} {key : Value} {q : ℚ} (number : key.fraction? = some q)
    (place : towardZero q = i) (inside : i < (h.items id).size)
    (length : (h'.items id).size = (h.items id).size) (written : (h'.items id)[i]? = some value)
    (others : ∀ j ≠ i, (h'.items id)[j]? = (h.items id)[j]?)
    (read : h'.indexGet (.list id) key = .ok value) : WroteSlot h h' value (.list id) key
  | entry {id : Nat} {key : Value}
    (put : OrderedMap.Put (h.display key) value (h.entries id).entries (h'.entries id).entries)
    (read : h'.indexGet (.map id) (.text (h.display key)) = .ok value) :
    WroteSlot h h' value (.map id) key

/-- What a write does: no container comes or goes, none but the owner differs, and that in one
slot. -/
structure Wrote (h h' : Heap) (owner key value : Value) : Prop where
  lists : h'.lists.size = h.lists.size
  maps : h'.maps.size = h.maps.size
  otherLists : ∀ id, .list id ≠ owner → h'.items id = h.items id
  otherMaps : ∀ id, .map id ≠ owner → h'.entries id = h.entries id
  slot : WroteSlot h h' value owner key

variable {h : Heap} {id i : Nat} {key value : Value}

theorem display_text (h : Heap) (s : String) : h.display (.text s) = s := by
  simp [display, unfold, unfoldUpTo, Tree.display]

theorem wrote_modifyList (slot : slot? key (h.items id).size = some i) :
    h.Wrote (h.modifyList id fun items => items.setIfInBounds i value) (.list id) key value := by
  obtain ⟨q, number, place, inside⟩ := slot?_eq_some.1 slot
  have there : id < h.lists.size :=
    lt_of_mem_items (v := (h.items id)[i]) (by simp)
  have items := items_modifyList_self (f := fun items => items.setIfInBounds i value) there
  refine ⟨by simp [modifyList], rfl, ?_, fun _ _ => rfl, ?_⟩
  · intro other apart
    exact items_modifyList_of_ne fun same => apart (by rw [same])
  · refine .item number place inside (by simp [items]) (by simp [items, inside]) ?_ ?_
    · intro j apart
      rw [items, Array.getElem?_setIfInBounds_ne (Ne.symm apart)]
    · simp [indexGet, items, slot, inside]

theorem wrote_modifyMap (there : id < h.maps.size) :
    h.Wrote (h.modifyMap id fun entries => entries.insert (h.display key) value) (.map id) key
      value := by
  have entries :=
    entries_modifyMap_self (f := fun entries => entries.insert (h.display key) value) there
  refine ⟨rfl, by simp [modifyMap], fun _ _ => rfl, ?_, ?_⟩
  · intro other apart
    exact entries_modifyMap_of_ne fun same => apart (by rw [same])
  · refine .entry ?_ ?_
    · rw [entries]
      exact OrderedMap.put_upsert _ _ _
    · rw [indexGet, entries, display_text, OrderedMap.get?_insert_self, Option.getD_some]

/-! ## Which writes are refused -/

/-- A list refuses just the keys that name no slot. -/
theorem refuses_list_iff : h.Refuses (.list id) key ↔ slot? key (h.items id).size = none := by
  rw [Option.eq_none_iff_forall_ne_some]
  constructor
  · rintro refused i slot
    obtain ⟨q, number, place, inside⟩ := slot?_eq_some.1 slot
    cases refused with
    | scalar scalar => cases scalar
    | notNumber other =>
      rw [Value.fraction?_eq_none.2 (.inl other)] at number
      cases number
    | notFinite special =>
      rw [Value.fraction?_eq_none.2 (.inr ⟨_, rfl, special⟩)] at number
      cases number
    | outside number' out =>
      cases number.symm.trans number'
      omega
  · intro missing
    cases number : key.fraction? with
    | none =>
      rcases Value.fraction?_eq_none.1 number with other | ⟨x, rfl, special⟩
      · exact .notNumber other
      · exact .notFinite special
    | some q =>
      refine .outside number ?_
      by_contra inside
      rw [not_or, not_lt, not_le] at inside
      obtain ⟨i, place⟩ := Int.eq_ofNat_of_zero_le inside.1
      exact missing i (slot?_eq_some.2 ⟨q, number, place, by omega⟩)

theorem not_refuses_map : ¬ h.Refuses (.map id) key := by
  rintro ⟨⟨⟩⟩

/-- The writes that fail are those that are refused. -/
theorem indexSet_fails_iff {owner : Value} :
    (∃ fault, h.indexSet owner key value = .error fault) ↔ h.Refuses owner key := by
  cases owner with
  | list id =>
    rw [refuses_list_iff, indexSet]
    cases number : key.isNumber with
    | false => simp [refuses_list_iff.1 (Refuses.notNumber number : h.Refuses (.list id) key)]
    | true => cases slot : slot? key (h.items id).size <;> simp [slot]
  | map id => simp [indexSet, not_refuses_map]
  | _ => simpa [indexSet] using Refuses.scalar rfl

/-- A write that does not fail changes one slot of its owner. -/
theorem wrote_of_indexSet {h' : Heap} {owner : Value} (known : h.Known owner)
    (written : h.indexSet owner key value = .ok h') : h.Wrote h' owner key value := by
  unfold indexSet at written
  split at written
  · split at written
    · cases written
    · dsimp only at written
      split at written
      next slot =>
        cases written
        exact wrote_modifyList slot
      next => cases written
  · cases written
    exact wrote_modifyMap known
  · cases written

end Heap

/-! ## Writes of a running program -/

variable {φ : Type}

/-- A write fails exactly if it is refused, and then nothing at all has changed; a write that does
not fail has changed the heap alone, and there one slot of the owner. -/
theorem index_writes_local (m : Machine φ) {owner : Value} (key value : Value)
    (known : m.world.heap.Known owner) :
    let h := m.world.heap
    ((∃ fault, h.indexSet owner key value = .error fault) ↔ h.Refuses owner key) ∧
    (∀ fault, h.indexSet owner key value = .error fault →
      outcome (Eval.indexSet owner key value) m =
        (.error (.stopped (.failed { fault := fault })), m)) ∧
    ∀ h', h.indexSet owner key value = .ok h' →
      h.Wrote h' owner key value ∧
      outcome (Eval.indexSet owner key value) m =
        (.ok (), { m with world := { m.world with heap := h' } }) := by
  refine ⟨Heap.indexSet_fails_iff, ?_, ?_⟩
  · intro fault failed
    rw [Eval.outcome_indexSet, failed]
  · intro h' written
    refine ⟨Heap.wrote_of_indexSet known written, ?_⟩
    rw [Eval.outcome_indexSet, written]

/-- An empty map is written under itself, so under the text that it had before; a list takes itself
at a key with a fraction; and behind its end nothing is written. -/
theorem index_writes_local_self :
    let h : Heap := { lists := #[#[.null, .null]], maps := #[{}] }
    let m : Machine Unit := { Machine.fresh with world := { Machine.fresh.world with heap := h } }
    (h.Known (.map 0) ∧
      h.Wrote { h with maps := #[⟨[("\x7b\x7d", .map 0)]⟩] } (.map 0) (.map 0) (.map 0)) ∧
    (h.Known (.list 0) ∧
      h.Wrote { h with lists := #[#[.null, .list 0]] } (.list 0) (.float 1.5) (.list 0)) ∧
    h.Refuses (.list 0) (.int 2) ∧ (outcome (Eval.indexSet (.list 0) (.int 2) .null) m).2 = m := by
  intro h m
  have there : h.Known (.map 0) := Nat.one_pos
  have there' : h.Known (.list 0) := Nat.one_pos
  have refused : h.indexSet (.list 0) (.int 2) .null = .error (.outOfBounds 2 2) := rfl
  obtain ⟨fails, unchanged, -⟩ := index_writes_local m (.int 2) .null there'
  refine ⟨⟨there, ?_⟩, ⟨there', ?_⟩, fails.1 ⟨_, refused⟩, ?_⟩
  · exact ((index_writes_local m (.map 0) (.map 0) there).2.2 _ rfl).1
  · exact ((index_writes_local m (.float 1.5) (.list 0) there').2.2 _ rfl).1
  · rw [unchanged _ refused]

end Polyglot
