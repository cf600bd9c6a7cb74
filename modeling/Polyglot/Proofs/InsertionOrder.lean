import Mathlib.Data.Set.Card
import Polyglot.Proofs.OrderedMap

/-!
# Histories of a map

What a map holds can be read off the changes that were made to it: a name has the value that was
inserted last under it, unless it was erased since, and names are listed in the order of the changes
that brought them in. Every change gives back the value that it replaces, and touches no entry of
another name.
-/

namespace Polyglot.OrderedMap

variable {α : Type}

/-! ## Entries of other names -/

theorem find?_without_of_ne {name other : String} (apart : other ≠ name)
    (l : List (String × α)) : find? other (without name l) = find? other l := by
  induction l with
  | nil => rfl
  | cons e l ih =>
    obtain ⟨k, v⟩ := e
    by_cases here : k = name
    · rw [without, if_pos here, find?, if_neg (here ▸ Ne.symm apart)]
    · rw [without, if_neg here, find?, find?, ih]

theorem find?_without_self {name : String} {l : List (String × α)}
    (distinct : (l.map Prod.fst).Nodup) : find? name (without name l) = none := by
  induction l with
  | nil => rfl
  | cons e l ih =>
    obtain ⟨k, v⟩ := e
    obtain ⟨fresh, rest⟩ := List.nodup_cons.1 distinct
    by_cases here : k = name
    · rw [without, if_pos here, find?_eq_none]
      exact here ▸ fresh
    · rw [without, if_neg here, find?, if_neg here, ih rest]

theorem filter_upsert (name : String) (value : α) (l : List (String × α)) :
    (upsert name value l).filter (fun e => e.1 ≠ name) = l.filter fun e => e.1 ≠ name := by
  induction l with
  | nil => simp [upsert]
  | cons e l ih =>
    obtain ⟨k, v⟩ := e
    by_cases here : k = name
    · simp [upsert, here]
    · simp only [upsert, if_neg here, List.filter_cons, ih]

theorem filter_without (name : String) (l : List (String × α)) :
    (without name l).filter (fun e => e.1 ≠ name) = l.filter fun e => e.1 ≠ name := by
  induction l with
  | nil => rfl
  | cons e l ih =>
    obtain ⟨k, v⟩ := e
    by_cases here : k = name
    · simp [without, here]
    · simp only [without, if_neg here, List.filter_cons, ih]

/-- Where names are apart, the others keep their order. -/
theorem keys_erase {m : OrderedMap α} (distinct : m.Distinct) (name : String) :
    (m.erase name).keys = m.keys.erase name := by
  have absent : ∀ e ∈ (m.erase name).entries, e.1 ≠ name := by
    intro e member same
    have gone : name ∉ (m.erase name).keys := find?_eq_none.1 (find?_without_self distinct)
    exact gone (List.mem_map.2 ⟨e, member, same⟩)
  have others : (m.erase name).entries = m.entries.filter fun e => e.1 ≠ name := by
    rw [← List.filter_eq_self.2 fun e member => decide_eq_true (absent e member)]
    exact filter_without name m.entries
  rw [distinct.erase_eq_filter, keys, others, keys, List.filter_map]
  congr 1
  exact List.filter_congr fun e _ => by simp [bne, beq_eq_decide]

/-! ## Changes -/

/-- A change of a map. -/
inductive Change (α : Type)
  | insert (name : String) (value : α)
  | erase (name : String)

namespace Change

/-- The name whose entry is changed. -/
def name : Change α → String
  | insert name _ | erase name => name

/-- What the change gives back, and the map after it. -/
def apply (m : OrderedMap α) : Change α → Option α × OrderedMap α
  | insert name value => m.getThenInsert name value
  | erase name => m.getThenErase name

@[simp] theorem apply_insert (m : OrderedMap α) (name : String) (value : α) :
    (insert name value).apply m = (m.get? name, m.insert name value) :=
  m.getThenInsert_eq name value

@[simp] theorem apply_erase (m : OrderedMap α) (name : String) :
    (erase name).apply m = (m.get? name, m.erase name) :=
  m.getThenErase_eq name

/-- A change gives back the value that stood under its name. -/
theorem fst_apply (m : OrderedMap α) (c : Change α) : (c.apply m).1 = m.get? c.name := by
  cases c <;> simp [name]

theorem get?_apply_of_ne (m : OrderedMap α) (c : Change α) {other : String}
    (apart : other ≠ c.name) : (c.apply m).2.get? other = m.get? other := by
  cases c with
  | insert name value =>
    rw [apply_insert]
    exact m.get?_insert_of_ne apart value
  | erase name =>
    rw [apply_erase]
    exact find?_without_of_ne apart m.entries

theorem filter_apply (m : OrderedMap α) (c : Change α) :
    (c.apply m).2.entries.filter (fun e => e.1 ≠ c.name) =
      m.entries.filter fun e => e.1 ≠ c.name := by
  cases c with
  | insert name value =>
    rw [apply_insert]
    exact filter_upsert name value m.entries
  | erase name =>
    rw [apply_erase]
    exact filter_without name m.entries

theorem distinct_apply {m : OrderedMap α} (distinct : m.Distinct) (c : Change α) :
    (c.apply m).2.Distinct := by
  cases c with
  | insert name value => simpa using distinct.insert name value
  | erase name => simpa using distinct.erase name

end Change

/-- The map after some changes, one after the other. -/
def changed (m : OrderedMap α) (changes : List (Change α)) : OrderedMap α :=
  changes.foldl (fun m c => (c.apply m).2) m

/-- The changes that build a map from a list of entries. -/
def insertions (entries : List (String × α)) : List (Change α) :=
  entries.map fun e => .insert e.1 e.2

theorem changed_concat (m : OrderedMap α) (changes : List (Change α)) (c : Change α) :
    m.changed (changes ++ [c]) = (c.apply (m.changed changes)).2 := by
  simp [changed]

theorem changed_insertions (m : OrderedMap α) (entries : List (String × α)) :
    m.changed (insertions entries) = m.insertAll entries := by
  induction entries generalizing m with
  | nil => rfl
  | cons e entries ih =>
    have step : m.changed (insertions (e :: entries)) =
        ((Change.insert e.1 e.2).apply m).2.changed (insertions entries) := rfl
    rw [step, Change.apply_insert, ih]
    rfl

/-! ## What a history leaves -/

/-- The value was inserted under the name, and no later change is one of that name. -/
def Leaves (history : List (Change α)) (name : String) (value : α) : Prop :=
  ∃ before after, history = before ++ .insert name value :: after ∧ ∀ c ∈ after, c.name ≠ name

/-- The change with this number inserted the name when it was absent, and no later one erased it. -/
structure Since (history : List (Change α)) (name : String) (i : Nat) : Prop where
  inserted : ∃ value, history[i]? = some (.insert name value)
  absent : ∀ value, ¬ Leaves (history.take i) name value
  kept : ∀ c ∈ history.drop (i + 1), c ≠ .erase name

theorem not_leaves_nil (name : String) (value : α) : ¬ Leaves [] name value := by
  rintro ⟨before, after, split, -⟩
  simp at split

/-- Only the last change of a name counts. -/
theorem leaves_concat {history : List (Change α)} {c : Change α} {name : String} {value : α} :
    Leaves (history ++ [c]) name value ↔
      c = .insert name value ∨ c.name ≠ name ∧ Leaves history name value := by
  constructor
  · rintro ⟨before, after, split, others⟩
    rcases List.eq_nil_or_concat after with rfl | ⟨later, last, rfl⟩
    · exact .inl (List.cons.inj (List.append_inj' split rfl).2).1
    · rw [List.concat_eq_append] at split others
      rw [← List.cons_append, ← List.append_assoc] at split
      obtain ⟨rfl, same⟩ := List.append_inj' split rfl
      obtain ⟨rfl, -⟩ := List.cons.inj same
      refine .inr ⟨others c (by simp), before, later, rfl, ?_⟩
      exact fun d member => others d (List.mem_append_left _ member)
  · rintro (rfl | ⟨apart, before, after, rfl, others⟩)
    · exact ⟨history, [], rfl, by simp⟩
    · refine ⟨before, after ++ [c], by simp, ?_⟩
      intro d member
      rcases List.mem_append.1 member with earlier | last
      · exact others d earlier
      · rw [List.mem_singleton.1 last]
        exact apart

theorem exists_leaves_concat {history : List (Change α)} {c : Change α} {name : String} :
    (∃ value, Leaves (history ++ [c]) name value) ↔
      (∃ value, c = .insert name value) ∨ c.name ≠ name ∧ ∃ value, Leaves history name value := by
  simp only [leaves_concat, exists_or, exists_and_left]

theorem Since.lt_length {history : List (Change α)} {name : String} {i : Nat}
    (since : Since history name i) : i < history.length := by
  obtain ⟨value, inserted⟩ := since.inserted
  exact (List.getElem?_eq_some_iff.1 inserted).1

/-- A name is there since the last change only if that inserted it anew. -/
theorem since_concat {history : List (Change α)} {c : Change α} {name : String} {i : Nat} :
    Since (history ++ [c]) name i ↔
      Since history name i ∧ c ≠ .erase name ∨
        i = history.length ∧ (∃ value, c = .insert name value) ∧
          ¬ ∃ value, Leaves history name value := by
  constructor
  · rintro ⟨⟨value, inserted⟩, absent, kept⟩
    rcases Nat.lt_or_ge i history.length with earlier | last
    · rw [List.getElem?_append_left earlier] at inserted
      rw [List.take_append_of_le_length earlier.le] at absent
      rw [List.drop_append_of_le_length earlier] at kept
      refine .inl ⟨⟨⟨value, inserted⟩, absent, ?_⟩, kept c (by simp)⟩
      exact fun d member => kept d (List.mem_append_left _ member)
    · have bound := (List.getElem?_eq_some_iff.1 inserted).1
      obtain rfl : i = history.length := by
        rw [List.length_append, List.length_singleton] at bound
        omega
      rw [List.getElem?_concat_length] at inserted
      rw [List.take_left] at absent
      exact .inr ⟨rfl, ⟨value, Option.some.inj inserted⟩, not_exists.2 absent⟩
  · rintro (⟨since, other⟩ | ⟨rfl, ⟨value, rfl⟩, absent⟩)
    · have earlier := since.lt_length
      obtain ⟨⟨value, inserted⟩, absent, kept⟩ := since
      refine ⟨⟨value, ?_⟩, ?_, ?_⟩
      · rw [List.getElem?_append_left earlier, inserted]
      · rwa [List.take_append_of_le_length earlier.le]
      · rw [List.drop_append_of_le_length earlier]
        intro d member
        rcases List.mem_append.1 member with before | last
        · exact kept d before
        · rw [List.mem_singleton.1 last]
          exact other
    · refine ⟨⟨value, List.getElem?_concat_length⟩, ?_, ?_⟩
      · rw [List.take_left]
        exact not_exists.1 absent
      · simp

/-- A name is there since some change exactly if the history leaves a value under it. -/
theorem exists_since (history : List (Change α)) (name : String) :
    (∃ i, Since history name i) ↔ ∃ value, Leaves history name value := by
  induction history using List.reverseRecOn with
  | nil =>
    constructor
    · rintro ⟨i, since⟩
      exact absurd since.lt_length (Nat.not_lt_zero i)
    · rintro ⟨value, leaves⟩
      exact absurd leaves (not_leaves_nil name value)
  | append_singleton history c ih =>
    simp only [since_concat, exists_leaves_concat, exists_or, exists_and_right, ih]
    cases c with
    | insert k v =>
      by_cases here : k = name
      · subst here
        by_cases there : ∃ value, Leaves history k value <;> simp [there]
      · simp [here, Change.name]
    | erase k => by_cases here : k = name <;> simp [here, Change.name]

/-! ## Maps and their histories -/

/-- The map holds what the history leaves, in the order in which it came. -/
structure Records (history : List (Change α)) (m : OrderedMap α) : Prop where
  distinct : m.keys.Nodup
  value : ∀ name value, m.get? name = some value ↔ Leaves history name value
  ordered : m.keys.Pairwise fun a b => ∀ i j, Since history a i → Since history b j → i < j

namespace Records

variable {history : List (Change α)} {m : OrderedMap α}

theorem nil : Records [] (empty : OrderedMap α) where
  distinct := distinct_empty
  value name value := by simp [not_leaves_nil]
  ordered := List.Pairwise.nil

theorem mem_keys (records : Records history m) (name : String) :
    name ∈ m.keys ↔ ∃ value, Leaves history name value := by
  simp only [← records.value]
  exact ⟨exists_of_mem_keys, fun ⟨_, found⟩ => mem_keys_of_get? found⟩

theorem value_concat (records : Records history m) (c : Change α) (name : String) (value : α) :
    (c.apply m).2.get? name = some value ↔ Leaves (history ++ [c]) name value := by
  rw [leaves_concat]
  by_cases here : name = c.name
  · subst here
    cases c with
    | insert k v => simp [Change.name, eq_comm]
    | erase k =>
      have gone : (m.erase k).get? k = none := find?_without_self records.distinct
      simp [Change.name, gone]
  · have other : c ≠ .insert name value := by
      rintro rfl
      exact here rfl
    rw [c.get?_apply_of_ne m here, records.value]
    simp [other, Ne.symm here]

/-- A name that was there stands where it stood, whatever was changed. -/
theorem since_of_concat (records : Records history m) {c : Change α} {name : String} {i : Nat}
    (there : name ∈ m.keys) (since : Since (history ++ [c]) name i) : Since history name i := by
  rcases since_concat.1 since with ⟨before, -⟩ | ⟨-, -, absent⟩
  · exact before
  · exact absurd ((records.mem_keys name).1 there) absent

theorem ordered_concat (records : Records history m) (c : Change α) :
    (c.apply m).2.keys.Pairwise fun a b =>
      ∀ i j, Since (history ++ [c]) a i → Since (history ++ [c]) b j → i < j := by
  have before : m.keys.Pairwise fun a b =>
      ∀ i j, Since (history ++ [c]) a i → Since (history ++ [c]) b j → i < j := by
    refine records.ordered.imp_of_mem ?_
    intro a b first second lt i j since since'
    exact lt i j (records.since_of_concat first since) (records.since_of_concat second since')
  cases c with
  | erase name =>
    rw [Change.apply_erase, keys_erase records.distinct]
    exact before.sublist List.erase_sublist
  | insert name value =>
    rw [Change.apply_insert]
    by_cases there : name ∈ m.keys
    · rwa [keys_insert_of_mem value there]
    · rw [keys_insert_of_not_mem value there, List.pairwise_append]
      refine ⟨before, List.pairwise_singleton _ _, ?_⟩
      -- Only the new name is there since the last change.
      intro a member b isNew i j since since'
      rw [List.mem_singleton.1 isNew] at since'
      have earlier := (records.since_of_concat member since).lt_length
      rcases since_concat.1 since' with ⟨old, -⟩ | ⟨last, -⟩
      · have held := (exists_since history name).1 ⟨j, old⟩
        exact absurd ((records.mem_keys name).2 held) there
      · omega

/-- One more change is recorded. -/
theorem concat (records : Records history m) (c : Change α) :
    Records (history ++ [c]) (c.apply m).2 where
  distinct := Change.distinct_apply records.distinct c
  value := records.value_concat c
  ordered := records.ordered_concat c

theorem changed (records : Records history m) (changes : List (Change α)) :
    Records (history ++ changes) (m.changed changes) := by
  induction changes using List.reverseRecOn with
  | nil => rwa [List.append_nil]
  | append_singleton changes c ih =>
    rw [changed_concat, ← List.append_assoc]
    exact ih.concat c

theorem ofList (entries : List (String × α)) : Records (insertions entries) (ofList entries) := by
  have built := nil.changed (insertions entries)
  rwa [List.nil_append, changed_insertions] at built

/-- As many names have values as there are entries. -/
theorem encard (records : Records history m) :
    {name | ∃ value, Leaves history name value}.encard = m.size := by
  have names : {name | ∃ value, Leaves history name value} = (m.keys.toFinset : Set String) := by
    ext name
    simp [records.mem_keys]
  rw [names, Set.encard_coe_eq_coe_finsetCard, List.toFinset_card_of_nodup records.distinct, keys,
    List.length_map]
  rfl

theorem isEmpty_iff (records : Records history m) :
    m.isEmpty = true ↔ ∀ name value, ¬ Leaves history name value := by
  constructor
  · intro none name value leaves
    have empty : m.entries = [] := List.isEmpty_iff.1 none
    have found := (records.value name value).2 leaves
    rw [get?, empty] at found
    cases found
  · intro none
    refine List.isEmpty_iff.2 (List.eq_nil_iff_forall_not_mem.2 fun e member => ?_)
    obtain ⟨value, leaves⟩ := (records.mem_keys e.1).1 (List.mem_map_of_mem member)
    exact none e.1 value leaves

end Records

/-- However a map is built from entries and changed by insertions and erasures, no name is listed
twice, a name has the value that was inserted last under it if it was not erased since, and has none
otherwise, and names are listed in the order of the insertions since which they are there. Every
change gives back the value that stood under its name, and changes neither the values nor the order
of other names. -/
theorem insertion_order (entries : List (String × α)) (changes : List (Change α)) :
    let history := insertions entries ++ changes
    let m := (ofList entries).changed changes
    m.keys.Nodup ∧
    (∀ name value, m.get? name = some value ↔ Leaves history name value) ∧
    (∀ name, m.contains name = true ↔ ∃ value, Leaves history name value) ∧
    {name | ∃ value, Leaves history name value}.encard = m.size ∧
    (m.isEmpty = true ↔ ∀ name value, ¬ Leaves history name value) ∧
    (∀ name, name ∈ m.keys ↔ ∃ i, Since history name i) ∧
    m.keys.Pairwise (fun a b => ∀ i j, Since history a i → Since history b j → i < j) ∧
    ∀ c : Change α, (c.apply m).1 = m.get? c.name ∧
      (∀ other, other ≠ c.name → (c.apply m).2.get? other = m.get? other) ∧
      (c.apply m).2.entries.filter (fun e => e.1 ≠ c.name) =
        m.entries.filter fun e => e.1 ≠ c.name := by
  intro history m
  have records : Records history m := (Records.ofList entries).changed changes
  refine ⟨records.distinct, records.value, fun name => ?_, records.encard, records.isEmpty_iff,
    fun name => ?_, records.ordered, fun c => ⟨c.fst_apply m, ?_, c.filter_apply m⟩⟩
  · rw [contains_iff, records.mem_keys]
  · rw [records.mem_keys, exists_since]
  · exact fun other apart => c.get?_apply_of_ne m apart

end Polyglot.OrderedMap
