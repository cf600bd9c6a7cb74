/-!
# Maps that remember insertion order

A finite map from names to values that lists its entries in the order in which their names
were first inserted. Inserting under a present name replaces the value and keeps the place;
erasing a name and inserting it again moves it to the end. Look-ups are linear: the maps of a
script are small.
-/

namespace Polyglot

/-- A map from names to `α` in insertion order. -/
structure OrderedMap (α : Type) where
  entries : List (String × α) := []
deriving Inhabited

namespace OrderedMap

variable {α β : Type}

/-- The value under `name` in a list of entries, the first one winning. -/
def find? (name : String) : List (String × α) → Option α
  | [] => none
  | (k, v) :: rest => if k = name then some v else find? name rest

/-- Replaces the value under `name`, or appends an entry when there is none. -/
def upsert (name : String) (value : α) : List (String × α) → List (String × α)
  | [] => [(name, value)]
  | (k, v) :: rest => if k = name then (k, value) :: rest else (k, v) :: upsert name value rest

/-- Drops the first entry under `name`. -/
def without (name : String) : List (String × α) → List (String × α)
  | [] => []
  | (k, v) :: rest => if k = name then rest else (k, v) :: without name rest

/-- Replaces the value under `name` and gives the old one, or appends an entry when there is none. -/
def exchange (name : String) (value : α) :
    List (String × α) → Option α × List (String × α)
  | [] => (none, [(name, value)])
  | (k, v) :: rest =>
    if k = name then (some v, (k, value) :: rest)
    else
      let (old, rest) := exchange name value rest
      (old, (k, v) :: rest)

/-- Drops the first entry under `name` and gives its value. -/
def extract (name : String) : List (String × α) → Option α × List (String × α)
  | [] => (none, [])
  | (k, v) :: rest =>
    if k = name then (some v, rest)
    else
      let (old, rest) := extract name rest
      (old, (k, v) :: rest)

/-- Puts an entry into a list in increasing order of names, replacing one of the same name. -/
def insertSorted (name : String) (value : α) : List (String × α) → List (String × α)
  | [] => [(name, value)]
  | (k, v) :: rest =>
    if name < k then (name, value) :: (k, v) :: rest
    else if k = name then (k, value) :: rest
    else (k, v) :: insertSorted name value rest

/-- Entries in increasing order of names, the last one of equal names winning. -/
def sortEntries (entries : List (String × α)) : List (String × α) :=
  entries.foldl (fun out (k, v) => insertSorted k v out) []

/-- The map with no entries. -/
def empty : OrderedMap α := {}

/-- The value under `name`. -/
def get? (m : OrderedMap α) (name : String) : Option α :=
  find? name m.entries

/-- Some value stands under `name`. -/
def contains (m : OrderedMap α) (name : String) : Bool :=
  (m.get? name).isSome

/-- Puts `value` under `name`, keeping the place of a name that is already there. -/
def insert (m : OrderedMap α) (name : String) (value : α) : OrderedMap α :=
  ⟨upsert name value m.entries⟩

/-- Removes `name`; the other entries keep their order. -/
def erase (m : OrderedMap α) (name : String) : OrderedMap α :=
  ⟨without name m.entries⟩

/-- Puts `value` under `name` and gives the value that it takes the place of. -/
def getThenInsert (m : OrderedMap α) (name : String) (value : α) : Option α × OrderedMap α :=
  let (old, entries) := exchange name value m.entries
  (old, ⟨entries⟩)

/-- Removes `name` and gives the value that stood under it. -/
def getThenErase (m : OrderedMap α) (name : String) : Option α × OrderedMap α :=
  let (old, entries) := extract name m.entries
  (old, ⟨entries⟩)

/-- Number of entries. -/
def size (m : OrderedMap α) : Nat :=
  m.entries.length

/-- There are no entries. -/
def isEmpty (m : OrderedMap α) : Bool :=
  m.entries.isEmpty

/-- The names, in insertion order. -/
def keys (m : OrderedMap α) : List String :=
  m.entries.map Prod.fst

/-- The names in increasing order of their code points. -/
def sortedKeys (m : OrderedMap α) : List String :=
  m.keys.mergeSort (· ≤ ·)

/-- Inserts every entry of a list, from the left. -/
def insertAll (m : OrderedMap α) (entries : List (String × α)) : OrderedMap α :=
  entries.foldl (fun m (k, v) => m.insert k v) m

/-- The map built by inserting the entries of a list, from the left. -/
def ofList (entries : List (String × α)) : OrderedMap α :=
  empty.insertAll entries

/-- Inserts every entry of `other`. -/
def union (m other : OrderedMap α) : OrderedMap α :=
  m.insertAll other.entries

/-! ## Look-up after each operation -/

@[simp] theorem find?_upsert_self (name : String) (value : α) (l : List (String × α)) :
    find? name (upsert name value l) = some value := by
  induction l with
  | nil => simp [upsert, find?]
  | cons e l ih =>
    obtain ⟨k, v⟩ := e
    by_cases h : k = name <;> simp [upsert, find?, h, ih]

theorem find?_upsert_of_ne {name other : String} (h : other ≠ name) (value : α)
    (l : List (String × α)) : find? other (upsert name value l) = find? other l := by
  induction l with
  | nil => simp [upsert, find?, h.symm]
  | cons e l ih =>
    obtain ⟨k, v⟩ := e
    by_cases hk : k = name
    · subst hk; simp [upsert, find?, h.symm]
    · by_cases ho : k = other
      · subst ho; simp [upsert, find?, hk]
      · simp [upsert, find?, hk, ho, ih]

@[simp] theorem get?_empty (name : String) : (empty : OrderedMap α).get? name = none := rfl

@[simp] theorem get?_insert_self (m : OrderedMap α) (name : String) (value : α) :
    (m.insert name value).get? name = some value :=
  find?_upsert_self name value m.entries

theorem get?_insert_of_ne (m : OrderedMap α) {name other : String} (h : other ≠ name)
    (value : α) : (m.insert name value).get? other = m.get? other :=
  find?_upsert_of_ne h value m.entries

theorem exchange_eq (name : String) (value : α) (l : List (String × α)) :
    exchange name value l = (find? name l, upsert name value l) := by
  induction l with
  | nil => rfl
  | cons e l ih =>
    obtain ⟨k, v⟩ := e
    by_cases h : k = name <;> simp [exchange, find?, upsert, h, ih]

theorem extract_eq (name : String) (l : List (String × α)) :
    extract name l = (find? name l, without name l) := by
  induction l with
  | nil => rfl
  | cons e l ih =>
    obtain ⟨k, v⟩ := e
    by_cases h : k = name <;> simp [extract, find?, without, h, ih]

theorem getThenInsert_eq (m : OrderedMap α) (name : String) (value : α) :
    m.getThenInsert name value = (m.get? name, m.insert name value) := by
  simp [getThenInsert, exchange_eq, get?, insert]

theorem getThenErase_eq (m : OrderedMap α) (name : String) :
    m.getThenErase name = (m.get? name, m.erase name) := by
  simp [getThenErase, extract_eq, get?, erase]

end OrderedMap

end Polyglot
