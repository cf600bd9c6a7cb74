import Polyglot.OrderedMap

/-!
# Maps with distinct names

Every operation keeps the names of a map apart. Where they are apart, inserting all entries of one
map into another lets the entries of the first win, inserting them into the empty map gives the map
itself, and sorting them by name loses none.
-/

namespace Polyglot.OrderedMap

variable {α : Type}

/-! ## Entries -/

theorem find?_eq_none {name : String} {l : List (String × α)} :
    find? name l = none ↔ name ∉ l.map Prod.fst := by
  induction l with
  | nil => simp [find?]
  | cons e l ih =>
    obtain ⟨k, v⟩ := e
    by_cases h : k = name
    · simp [find?, h]
    · simp [find?, h, ih, Ne.symm h]

theorem mem_of_find? {name : String} {v : α} {l : List (String × α)}
    (found : find? name l = some v) : (name, v) ∈ l := by
  induction l with
  | nil => simp [find?] at found
  | cons e l ih =>
    obtain ⟨k, w⟩ := e
    by_cases h : k = name
    · simp [find?, h] at found
      simp [h, found]
    · simp [find?, h] at found
      exact List.mem_cons_of_mem _ (ih found)

/-- Where names are apart, every entry is found under its name. -/
theorem find?_of_mem {name : String} {v : α} {l : List (String × α)}
    (distinct : (l.map Prod.fst).Nodup) (member : (name, v) ∈ l) : find? name l = some v := by
  induction l with
  | nil => simp at member
  | cons e l ih =>
    obtain ⟨k, w⟩ := e
    obtain ⟨fresh, rest⟩ := List.nodup_cons.1 distinct
    rcases List.mem_cons.1 member with here | later
    · cases here
      simp [find?]
    · have apart : k ≠ name := by
        intro same
        subst same
        exact fresh (List.mem_map.2 ⟨_, later, rfl⟩)
      simp [find?, apart, ih rest later]

theorem mem_map_fst_upsert {name other : String} {value : α} {l : List (String × α)} :
    other ∈ (upsert name value l).map Prod.fst ↔ other = name ∨ other ∈ l.map Prod.fst := by
  induction l with
  | nil => simp [upsert]
  | cons e l ih =>
    obtain ⟨k, v⟩ := e
    by_cases h : k = name
    · subst h
      simp [upsert]
    · simp only [upsert, h, if_false, List.map_cons, List.mem_cons, ih]
      exact or_left_comm

theorem nodup_upsert (name : String) (value : α) {l : List (String × α)}
    (distinct : (l.map Prod.fst).Nodup) : ((upsert name value l).map Prod.fst).Nodup := by
  induction l with
  | nil => simp [upsert]
  | cons e l ih =>
    obtain ⟨k, v⟩ := e
    obtain ⟨fresh, rest⟩ := List.nodup_cons.1 distinct
    by_cases h : k = name
    · simpa [upsert, h] using distinct
    · rw [upsert, if_neg h]
      refine List.nodup_cons.2 ⟨fun again => ?_, ih rest⟩
      exact (mem_map_fst_upsert.1 again).elim h fresh

/-- A name that is not there yet gets an entry at the end. -/
theorem upsert_of_not_mem {name : String} (value : α) {l : List (String × α)}
    (fresh : name ∉ l.map Prod.fst) : upsert name value l = l ++ [(name, value)] := by
  induction l with
  | nil => rfl
  | cons e l ih =>
    obtain ⟨k, v⟩ := e
    obtain ⟨apart, rest⟩ := not_or.1 (fun h => fresh (List.mem_cons.2 h))
    rw [upsert, if_neg (Ne.symm apart), ih rest, List.cons_append]

/-- A name that is there already keeps its place. -/
theorem map_fst_upsert_of_mem {name : String} (value : α) {l : List (String × α)}
    (member : name ∈ l.map Prod.fst) : (upsert name value l).map Prod.fst = l.map Prod.fst := by
  induction l with
  | nil => simp at member
  | cons e l ih =>
    obtain ⟨k, v⟩ := e
    by_cases h : k = name
    · simp [upsert, h]
    · simp only [List.map_cons, List.mem_cons, Ne.symm h, false_or] at member
      simp [upsert, h, ih member]

theorem mem_upsert {name : String} {value : α} {e : String × α} {l : List (String × α)}
    (member : e ∈ upsert name value l) : e.2 = value ∨ e ∈ l := by
  induction l with
  | nil => simp_all [upsert]
  | cons f l ih =>
    obtain ⟨k, v⟩ := f
    by_cases h : k = name
    · simp only [upsert, h, if_true, List.mem_cons] at member
      rcases member with here | later
      · simp [here]
      · simp [later]
    · simp only [upsert, h, if_false, List.mem_cons] at member
      rcases member with here | later
      · simp [here]
      · exact (ih later).imp id (List.mem_cons_of_mem _)

theorem without_sublist (name : String) (l : List (String × α)) :
    (without name l).Sublist l := by
  induction l with
  | nil => exact .slnil
  | cons e l ih =>
    obtain ⟨k, v⟩ := e
    by_cases h : k = name
    · simp [without, h]
    · simpa [without, h] using ih

/-! ## Maps -/

/-- No name has two entries. -/
def Distinct (m : OrderedMap α) : Prop :=
  m.keys.Nodup

theorem get?_eq_none {m : OrderedMap α} {name : String} : m.get? name = none ↔ name ∉ m.keys :=
  find?_eq_none

theorem mem_keys_of_get? {m : OrderedMap α} {name : String} {v : α} (found : m.get? name = some v) :
    name ∈ m.keys :=
  List.mem_map_of_mem (f := Prod.fst) (mem_of_find? found)

theorem exists_of_mem_keys {m : OrderedMap α} {name : String} (member : name ∈ m.keys) :
    ∃ v, m.get? name = some v := by
  cases found : m.get? name with
  | none => exact absurd member (get?_eq_none.1 found)
  | some v => exact ⟨v, rfl⟩

theorem contains_iff {m : OrderedMap α} {name : String} :
    m.contains name = true ↔ name ∈ m.keys := by
  unfold contains
  cases found : m.get? name with
  | none => simpa using get?_eq_none.1 found
  | some v => simpa using mem_keys_of_get? found

theorem keys_insert_of_mem {m : OrderedMap α} {name : String} (value : α)
    (member : name ∈ m.keys) : (m.insert name value).keys = m.keys :=
  map_fst_upsert_of_mem value member

theorem keys_insert_of_not_mem {m : OrderedMap α} {name : String} (value : α)
    (fresh : name ∉ m.keys) : (m.insert name value).keys = m.keys ++ [name] := by
  have appended : (m.insert name value).entries = m.entries ++ [(name, value)] :=
    upsert_of_not_mem value fresh
  simp [keys, appended]

theorem mem_insert {m : OrderedMap α} {name : String} {value : α} {e : String × α}
    (member : e ∈ (m.insert name value).entries) : e.2 = value ∨ e ∈ m.entries :=
  mem_upsert member

/-- Inserting never moves a name. -/
theorem keys_prefix_insert (m : OrderedMap α) (name : String) (value : α) :
    m.keys <+: (m.insert name value).keys := by
  by_cases member : name ∈ m.keys
  · simp [keys_insert_of_mem value member]
  · simp [keys_insert_of_not_mem value member]

theorem distinct_empty : (empty : OrderedMap α).Distinct :=
  List.nodup_nil

theorem Distinct.insert {m : OrderedMap α} (distinct : m.Distinct) (name : String) (value : α) :
    (m.insert name value).Distinct :=
  nodup_upsert name value distinct

theorem Distinct.erase {m : OrderedMap α} (distinct : m.Distinct) (name : String) :
    (m.erase name).Distinct :=
  List.Nodup.sublist ((without_sublist name m.entries).map Prod.fst) distinct

theorem Distinct.insertAll {m : OrderedMap α} (distinct : m.Distinct)
    (entries : List (String × α)) : (m.insertAll entries).Distinct := by
  induction entries generalizing m with
  | nil => exact distinct
  | cons e entries ih => exact ih (distinct.insert e.1 e.2)

/-- Of entries inserted one after the other the last one of a name wins, so where each name is
given once that one does. -/
theorem get?_insertAll {entries : List (String × α)} (distinct : (entries.map Prod.fst).Nodup)
    (m : OrderedMap α) (name : String) :
    (m.insertAll entries).get? name = (find? name entries).or (m.get? name) := by
  induction entries generalizing m with
  | nil => rfl
  | cons e entries ih =>
    obtain ⟨k, v⟩ := e
    obtain ⟨fresh, distinct⟩ := List.nodup_cons.1 distinct
    have step : (m.insertAll ((k, v) :: entries)).get? name =
        (find? name entries).or ((m.insert k v).get? name) := ih distinct (m.insert k v)
    rw [step]
    by_cases h : k = name
    · subst h
      rw [find?_eq_none.2 fresh, get?_insert_self]
      simp [find?]
    · rw [get?_insert_of_ne m (Ne.symm h)]
      simp [find?, h]

/-- Entries with distinct names, inserted after others of yet other names, all go to the end. -/
theorem entries_insertAll {m : OrderedMap α} {entries : List (String × α)}
    (distinct : ((m.entries ++ entries).map Prod.fst).Nodup) :
    (m.insertAll entries).entries = m.entries ++ entries := by
  induction entries generalizing m with
  | nil => simp [insertAll]
  | cons e entries ih =>
    have fresh : e.1 ∉ m.entries.map Prod.fst := by
      rw [List.map_append, List.nodup_append] at distinct
      exact fun member => distinct.2.2 _ member e.1 (by simp) rfl
    have inserted : (m.insert e.1 e.2).entries = m.entries ++ [e] :=
      upsert_of_not_mem e.2 fresh
    have step : (m.insertAll (e :: entries)).entries =
        (m.insert e.1 e.2).entries ++ entries := ih (by simpa [inserted] using distinct)
    rw [step, inserted, List.append_assoc, List.singleton_append]

theorem Distinct.insertAll_empty {m : OrderedMap α} (distinct : m.Distinct) :
    (empty : OrderedMap α).insertAll m.entries = m := by
  have same : ((empty : OrderedMap α).insertAll m.entries).entries = m.entries :=
    entries_insertAll distinct
  obtain ⟨entries⟩ := m
  exact congrArg mk same

/-! ## Sorting -/

theorem insertSorted_perm {name : String} (value : α) {l : List (String × α)}
    (fresh : name ∉ l.map Prod.fst) : (insertSorted name value l).Perm ((name, value) :: l) := by
  induction l with
  | nil => simp [insertSorted]
  | cons e l ih =>
    obtain ⟨k, v⟩ := e
    obtain ⟨apart, rest⟩ := not_or.1 (fun h => fresh (List.mem_cons.2 h))
    by_cases less : name < k
    · simp [insertSorted, less]
    · rw [insertSorted, if_neg less, if_neg (Ne.symm apart)]
      exact ((ih rest).cons _).trans (.swap _ _ _)

theorem pairwise_insertSorted {name : String} (value : α) {l : List (String × α)}
    (fresh : name ∉ l.map Prod.fst) (sorted : l.Pairwise fun a b => a.1 ≤ b.1) :
    (insertSorted name value l).Pairwise fun a b => a.1 ≤ b.1 := by
  induction l with
  | nil => simp [insertSorted]
  | cons e l ih =>
    obtain ⟨k, v⟩ := e
    obtain ⟨apart, rest⟩ := not_or.1 (fun h => fresh (List.mem_cons.2 h))
    obtain ⟨first, tail⟩ := List.pairwise_cons.1 sorted
    by_cases less : name < k
    · rw [insertSorted, if_pos less]
      refine List.pairwise_cons.2 ⟨?_, sorted⟩
      intro b member
      have below : name ≤ k :=
        String.not_lt.1 fun more => String.lt_irrefl _ (String.lt_trans less more)
      rcases List.mem_cons.1 member with here | later
      · exact here ▸ below
      · exact String.le_trans below (first b later)
    · rw [insertSorted, if_neg less, if_neg (Ne.symm apart)]
      refine List.pairwise_cons.2 ⟨?_, ih rest tail⟩
      intro b member
      rcases List.mem_cons.1 ((insertSorted_perm value rest).mem_iff.1 member) with here | later
      · exact here ▸ String.not_lt.1 less
      · exact first b later

theorem foldl_insertSorted {l out : List (String × α)}
    (distinct : ((out ++ l).map Prod.fst).Nodup) (sorted : out.Pairwise fun a b => a.1 ≤ b.1) :
    (l.foldl (fun out e => insertSorted e.1 e.2 out) out).Perm (out ++ l) ∧
      (l.foldl (fun out e => insertSorted e.1 e.2 out) out).Pairwise fun a b => a.1 ≤ b.1 := by
  induction l generalizing out with
  | nil => simpa using sorted
  | cons e l ih =>
    have fresh : e.1 ∉ out.map Prod.fst := by
      rw [List.map_append, List.nodup_append] at distinct
      exact fun member => distinct.2.2 _ member e.1 (by simp) rfl
    have moved : (insertSorted e.1 e.2 out ++ l).Perm (out ++ e :: l) :=
      ((insertSorted_perm e.2 fresh).append_right l).trans List.perm_middle.symm
    have step := @ih (insertSorted e.1 e.2 out) ((moved.map Prod.fst).nodup_iff.2 distinct)
      (pairwise_insertSorted e.2 fresh sorted)
    exact ⟨step.1.trans moved, step.2⟩

/-- Entries with distinct names are put in order of their names. -/
theorem sortEntries_eq_mergeSort {l : List (String × α)} (distinct : (l.map Prod.fst).Nodup) :
    sortEntries l = l.mergeSort fun a b => decide (a.1 ≤ b.1) := by
  obtain ⟨same, sorted⟩ := @foldl_insertSorted α l [] distinct List.Pairwise.nil
  have merged : (l.mergeSort fun a b => decide (a.1 ≤ b.1)).Pairwise fun a b => a.1 ≤ b.1 := by
    have transitive : ∀ a b c : String × α, decide (a.1 ≤ b.1) = true → decide (b.1 ≤ c.1) = true →
        decide (a.1 ≤ c.1) = true := by
      intro a b c first second
      exact decide_eq_true (String.le_trans (of_decide_eq_true first) (of_decide_eq_true second))
    have total : ∀ a b : String × α, (decide (a.1 ≤ b.1) || decide (b.1 ≤ a.1)) = true := by
      intro a b
      simpa using String.le_total a.1 b.1
    exact (List.pairwise_mergeSort transitive total l).imp of_decide_eq_true
  refine List.Perm.eq_of_pairwise ?_ sorted merged (same.trans (List.mergeSort_perm l _).symm)
  intro a b left right below above
  have names : a.1 = b.1 := String.le_antisymm below above
  have found := find?_of_mem distinct (same.mem_iff.1 left)
  have found' := find?_of_mem distinct ((List.mergeSort_perm l _).mem_iff.1 right)
  rw [names, found'] at found
  exact Prod.ext names (Option.some.inj found).symm

end Polyglot.OrderedMap
