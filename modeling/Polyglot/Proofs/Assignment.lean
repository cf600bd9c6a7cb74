import Polyglot.Proofs.Cache
import Polyglot.Proofs.InsertionOrder
import Polyglot.Proofs.Names

/-!
# Assignments on shared scopes

Stacks may have scopes in common, and scopes may be changed behind the back of a stack. Whatever
was done, an assignment writes one entry of one scope: that of the innermost scope in which the name
was bound, or else a new one in the current scope. So assignments to different names commute, and
bindings of a host may be assigned in any order.
-/

namespace Polyglot

variable {φ : Type}

/-! ## One entry of one scope -/

namespace ScopeStore

@[simp] theorem size_set (s : ScopeStore) (id : Nat) (name : String) (value : Value) :
    (s.set id name value).tables.size = s.tables.size := by
  simp [set, modify]

theorem scope_set_of_ne (s : ScopeStore) {id place : Nat} (apart : place ≠ id) (name : String)
    (value : Value) : (s.set id name value).scope place = s.scope place := by
  simp [set, modify, scope, Array.getD_eq_getD_getElem?, Array.getElem?_modify, Ne.symm apart]

/-- Scopes keep their names. -/
@[simp] theorem name_set (s : ScopeStore) (id place : Nat) (name : String) (value : Value) :
    ((s.set id name value).scope place).name = (s.scope place).name := by
  simp only [set, modify, scope, Array.getD_eq_getD_getElem?, Array.getElem?_modify]
  by_cases here : id = place
  · cases s.tables[place]? <;> simp [here]
  · simp [here]

theorem get?_set (s : ScopeStore) (id place : Nat) (name other : String) (value : Value) :
    (s.set id name value).get? place other =
      if place = id ∧ other = name ∧ id < s.tables.size then some value
      else s.get? place other := by
  by_cases here : place = id ∧ other = name ∧ id < s.tables.size
  · obtain ⟨rfl, rfl, valid⟩ := here
    rw [if_pos ⟨rfl, rfl, valid⟩, get?_set_self valid]
  · rw [if_neg here, get?, get?]
    by_cases same : place = id
    · subst same
      rcases s.bindings_modify place place fun bindings => bindings.insert name value
        with kept | changed
      · rw [set, kept]
      · by_cases valid : place < s.tables.size
        · have apart : other ≠ name := fun equal => here ⟨rfl, equal, valid⟩
          rw [set, changed, OrderedMap.get?_insert_of_ne _ apart]
        · have outside : s.tables.modify place (fun scope =>
              { scope with bindings := scope.bindings.insert name value }) = s.tables := by
            simp [Array.modify, Array.modifyM, valid]
          rw [set, modify, outside]
    · rw [set, bindings_modify_of_ne s same]

/-- The two stores differ only in one entry of one scope. -/
structure Written (s : ScopeStore) (id : Nat) (name : String) (value : Value) (t : ScopeStore) :
    Prop where
  value : t.get? id name = some value
  size : t.tables.size = s.tables.size
  label : (t.scope id).name = (s.scope id).name
  entries : (t.bindings id).entries.filter (fun e => e.1 ≠ name) =
    (s.bindings id).entries.filter fun e => e.1 ≠ name
  others : ∀ other, other ≠ id → t.scope other = s.scope other

theorem written_set {s : ScopeStore} {id : Nat} (valid : id < s.tables.size) (name : String)
    (value : Value) : s.Written id name value (s.set id name value) where
  value := get?_set_self valid name value
  size := s.size_set id name value
  label := s.name_set id id name value
  entries := by
    rw [set, bindings_modify_self s valid]
    exact OrderedMap.filter_upsert name value _
  others _ apart := s.scope_set_of_ne apart name value

/-! ## Stores with the same tables -/

/-- The same scopes, with the same values under the same names. -/
structure SameTables (s t : ScopeStore) : Prop where
  size : s.tables.size = t.tables.size
  label : ∀ id, (s.scope id).name = (t.scope id).name
  value : ∀ id name, s.get? id name = t.get? id name

namespace SameTables

variable {s t u : ScopeStore}

theorem refl (s : ScopeStore) : s.SameTables s :=
  ⟨rfl, fun _ => rfl, fun _ _ => rfl⟩

theorem trans (first : s.SameTables t) (second : t.SameTables u) : s.SameTables u where
  size := first.size.trans second.size
  label id := (first.label id).trans (second.label id)
  value id name := (first.value id name).trans (second.value id name)

theorem set (same : s.SameTables t) (id : Nat) (name : String) (value : Value) :
    (s.set id name value).SameTables (t.set id name value) where
  size := by rw [size_set, size_set, same.size]
  label place := by rw [name_set, name_set, same.label]
  value place other := by rw [get?_set, get?_set, same.size, same.value]

theorem new (same : s.SameTables t) (name : String) :
    (s.new name).2.SameTables (t.new name).2 where
  size := by simp [ScopeStore.new, same.size]
  label id := by
    have labels := same.label id
    simp only [scope, Array.getD_eq_getD_getElem?] at labels
    simp only [ScopeStore.new, scope, Array.getD_eq_getD_getElem?, Array.getElem?_push, same.size]
    by_cases new : id = t.tables.size
    · simp [new]
    · simpa [new] using labels
  value id other := by
    rw [get?, get?, bindings_new, bindings_new]
    exact same.value id other

/-- Where no table holds a name twice, the tables have the same entries, but perhaps in another
order. -/
theorem entries_perm (same : s.SameTables t) {id : Nat} (distinct : (s.bindings id).Distinct)
    (distinct' : (t.bindings id).Distinct) :
    (s.bindings id).entries.Perm (t.bindings id).entries := by
  refine (List.perm_ext_iff_of_nodup distinct.of_map distinct'.of_map).2 fun e => ?_
  constructor
  · intro member
    have found := OrderedMap.find?_of_mem distinct member
    exact OrderedMap.mem_of_find? ((same.value id e.1).symm.trans found)
  · intro member
    have found := OrderedMap.find?_of_mem distinct' member
    exact OrderedMap.mem_of_find? ((same.value id e.1).trans found)

end SameTables

end ScopeStore

/-! ## Assignments -/

namespace ScopeStack

/-- The scope that an assignment to a name writes: the innermost one in which the name is bound, or
else the current one. -/
inductive Receives (k : ScopeStack) (s : ScopeStore) (name : String) : Nat → Prop
  | bound {inner outer : List Nat} {id : Nat} (chain : k.chain = inner ++ id :: outer)
    (binds : (s.bindings id).contains name = true)
    (free : ∀ other ∈ inner, (s.bindings other).contains name = false) : Receives k s name id
  | unbound (free : ∀ other ∈ k.chain, (s.bindings other).contains name = false) :
    Receives k s name k.current

theorem receives_owner (k : ScopeStack) (s : ScopeStore) (name : String) :
    k.Receives s name (k.owner s name) := by
  unfold owner
  cases found : k.chain.find? fun id => (s.bindings id).contains name with
  | none =>
    refine .unbound fun other member => ?_
    simpa using List.find?_eq_none.1 found other member
  | some id =>
    obtain ⟨binds, inner, outer, chain, free⟩ := List.find?_eq_some_iff_append.1 found
    exact .bound chain binds fun other member => by simpa using free other member

theorem Receives.mem_chain {k : ScopeStack} {s : ScopeStore} {name : String} {id : Nat}
    (receives : k.Receives s name id) : id ∈ k.chain := by
  cases receives with
  | bound chain => simp [chain]
  | unbound =>
    rw [k.chain_eq]
    exact List.mem_cons_self

/-- Which scope is written depends only on where the name is bound. -/
theorem owner_congr {s t : ScopeStore} {name : String}
    (same : ∀ id, s.get? id name = t.get? id name) (k : ScopeStack) :
    k.owner s name = k.owner t name := by
  have bound : ∀ id, (s.bindings id).contains name = (t.bindings id).contains name :=
    fun id => congrArg Option.isSome (same id)
  simp only [owner, bound]

theorem get?_congr (k : ScopeStack) {s t : ScopeStore} {name : String}
    (same : ∀ id, s.get? id name = t.get? id name) :
    k.get? s name = k.get? t name := by
  simp only [get?, same]

/-- Other names are not affected, in whatever scope. -/
theorem get?_assign_other (k : ScopeStack) (s : ScopeStore) {name other : String}
    (apart : other ≠ name) (value : Value) (id : Nat) :
    (k.assign s name value).get? id other = s.get? id other := by
  rw [assign_eq, ScopeStore.get?_set, if_neg fun here => apart here.2.1]

theorem assign_congr {s t : ScopeStore} (same : s.SameTables t) (k : ScopeStack) (name : String)
    (value : Value) : (k.assign s name value).SameTables (k.assign t name value) := by
  rw [assign_eq, assign_eq, owner_congr fun id => same.value id name]
  exact same.set _ name value

/-- Assignments to different names commute, also on different stacks. -/
theorem assign_comm (k l : ScopeStack) (s : ScopeStore) {name other : String}
    (apart : name ≠ other) (value value' : Value) :
    (l.assign (k.assign s name value) other value').SameTables
      (k.assign (l.assign s other value') name value) := by
  have ownOther : l.owner (k.assign s name value) other = l.owner s other :=
    owner_congr (k.get?_assign_other s apart.symm value) l
  have ownName : k.owner (l.assign s other value') name = k.owner s name :=
    owner_congr (l.get?_assign_other s apart value') k
  rw [assign_eq l, assign_eq k (l.assign s other value'), ownOther, ownName, assign_eq, assign_eq]
  refine ⟨by simp, fun id => by simp, fun id read => ?_⟩
  simp only [ScopeStore.get?_set, ScopeStore.size_set]
  by_cases first : read = name
  · subst first
    simp [apart]
  · simp [first]

theorem assignAll_congr {s t : ScopeStore} (same : s.SameTables t) (k : ScopeStack)
    (entries : List (String × Value)) :
    (k.assignAll s entries).SameTables (k.assignAll t entries) := by
  induction entries generalizing s t with
  | nil => exact same
  | cons e entries ih => exact ih (assign_congr same k e.1 e.2)

/-- Names that are all different may be assigned in any order. -/
theorem assignAll_perm (k : ScopeStack) {entries entries' : List (String × Value)}
    (perm : entries.Perm entries') (distinct : (entries.map Prod.fst).Nodup) {s t : ScopeStore}
    (same : s.SameTables t) :
    (k.assignAll s entries).SameTables (k.assignAll t entries') := by
  induction perm generalizing s t with
  | nil => exact same
  | cons e _ ih => exact ih (List.nodup_cons.1 distinct).2 (assign_congr same k e.1 e.2)
  | swap e d rest =>
    have apart : d.1 ≠ e.1 := by
      intro equal
      exact (List.nodup_cons.1 distinct).1 (equal ▸ List.mem_cons_self)
    have swapped : (k.assign (k.assign s d.1 d.2) e.1 e.2).SameTables
        (k.assign (k.assign t e.1 e.2) d.1 d.2) :=
      (k.assign_comm k s apart d.2 e.2).trans
        (assign_congr (assign_congr same k e.1 e.2) k d.1 d.2)
    exact assignAll_congr swapped k rest
  | trans first _ ih ih' =>
    exact (ih distinct same).trans
      (ih' ((first.map Prod.fst).nodup_iff.1 distinct) (ScopeStore.SameTables.refl t))

end ScopeStack

/-! ## Machines with the same tables -/

/-- Machines that differ at most in the order in which their tables list names. -/
def Machine.SameTables (m m' : Machine φ) : Prop :=
  ∃ scopes, m.world.scopes.SameTables scopes ∧
    m' = { m with world := { m.world with scopes := scopes } }

/-- Functions of the host that do not look at the order in which tables list names. -/
def Host.IgnoresOrder (host : Host φ) : Prop :=
  ∀ function args {m m' : Machine φ}, m.SameTables m' →
    (outcome (host function args) m).1 = (outcome (host function args) m').1 ∧
      (outcome (host function args) m).2.SameTables (outcome (host function args) m').2

/-- Nor does evaluation look at it. -/
theorem Host.IgnoresOrder.simulation {host : Host φ} (ignores : host.IgnoresOrder) :
    Simulation host Machine.SameTables where
  self := by
    rintro m _ ⟨scopes, -, rfl⟩
    rfl
  heap := by
    rintro m _ ⟨scopes, -, rfl⟩
    rfl
  scopes := by
    rintro m _ ⟨scopes, same, rfl⟩
    exact same.value
  setSelf := by
    rintro m _ self ⟨scopes, same, rfl⟩
    exact ⟨scopes, same, rfl⟩
  setHeap := by
    rintro m _ heap ⟨scopes, same, rfl⟩
    exact ⟨scopes, same, rfl⟩
  assign := by
    rintro m _ name value ⟨scopes, same, rfl⟩
    exact ⟨_, ScopeStack.assign_congr same m.self.scopes name value, rfl⟩
  pushScope := by
    rintro m _ name ⟨scopes, same, rfl⟩
    refine ⟨(scopes.new name).2, same.new name, ?_⟩
    simp only [Machine.pushScope, ScopeStack.push, ScopeStore.new, same.size]
    rfl
  emit := by
    rintro m _ level event ⟨scopes, same, rfl⟩
    exact ⟨scopes, same, rfl⟩
  call := ignores

/-- The end of a run is the same, and so are the machines but for the order in their tables. -/
theorem Host.IgnoresOrder.executeProgram {host : Host φ} (ignores : host.IgnoresOrder)
    (budget : Nat) (p : Program) {m m' : Machine φ} (same : m.SameTables m') :
    (outcome (Polyglot.executeProgram host budget p) m).1 =
        (outcome (Polyglot.executeProgram host budget p) m').1 ∧
      (outcome (Polyglot.executeProgram host budget p) m).2.SameTables
        (outcome (Polyglot.executeProgram host budget p) m').2 := by
  obtain ⟨alike, k, k', sameEnd, ended, ended'⟩ :=
    ignores.simulation.executeProgram id budget p p rfl (Node.mapLocAll_id _) same
  have sameResult := alike.eq fun _ _ moved => moved.eq
  rw [ended, ended', sameResult]
  exact ⟨rfl, ignores.simulation.report _ sameEnd⟩

/-- Bindings of the host are assigned with the same effect in whatever order they come. -/
theorem Host.IgnoresOrder.execute {host : Host φ} (ignores : host.IgnoresOrder) (budget : Nat)
    (source : String) (useCache : Bool) {bindings bindings' : List (String × Value)}
    (perm : bindings.Perm bindings') (distinct : (bindings.map Prod.fst).Nodup) (m : Machine φ) :
    (outcome (Polyglot.execute host budget source useCache bindings) m).1 =
        (outcome (Polyglot.execute host budget source useCache bindings') m).1 ∧
      (outcome (Polyglot.execute host budget source useCache bindings) m).2.SameTables
        (outcome (Polyglot.execute host budget source useCache bindings') m).2 := by
  rw [outcome_execute, outcome_execute]
  rcases compileIn source useCache m with ⟨e | compiled, k⟩
  · exact ⟨rfl, k.world.scopes, .refl _, rfl⟩
  · have bound : (k.assignAll bindings).SameTables (k.assignAll bindings') :=
      ⟨_, k.self.scopes.assignAll_perm perm distinct (.refl k.world.scopes), rfl⟩
    obtain ⟨sameResult, sameEnd⟩ := ignores.executeProgram budget compiled.program bound
    exact ⟨congrArg (Except.mapError Failure.stopped) sameResult, sameEnd⟩

/-! ## Stacks on one store -/

/-- Stacks that stand on the scopes of one store. -/
structure Stacks where
  store : ScopeStore := {}
  all : List ScopeStack := []

namespace Stacks

/-- What is done with scopes and stacks. Scopes and stacks are known by their numbers. -/
inductive Command
  /-- A new scope, on no stack yet. -/
  | scope (name : String)
  /-- A new stack on an existing scope. -/
  | stand (root : Nat)
  /-- Another stack of the same scopes. -/
  | clone (stack : Nat)
  | push (stack : Nat) (name : String)
  | truncate (stack : Nat) (depth : Nat)
  | define (stack : Nat) (name : String) (value : Value)
  | assign (stack : Nat) (name : String) (value : Value)
  | set (id : Nat) (name : String) (value : Value)
  | erase (id : Nat) (name : String)
  | clear (id : Nat)

/-- Does something with a stack, if there is one of the number. -/
def onStack (s : Stacks) (stack : Nat) (f : ScopeStack → ScopeStack × ScopeStore) : Stacks :=
  match s.all[stack]? with
  | some k => ⟨(f k).2, s.all.set stack (f k).1⟩
  | none => s

/-- The scopes and stacks after a command. -/
def run (s : Stacks) : Command → Stacks
  | .scope name => { s with store := (s.store.new name).2 }
  | .stand root =>
    if root < s.store.tables.size then { s with all := s.all ++ [{ root := root }] } else s
  | .clone stack => { s with all := s.all ++ s.all[stack]?.toList }
  | .push stack name => s.onStack stack fun k => k.push s.store name
  | .truncate stack depth => s.onStack stack fun k => (k.truncate depth, s.store)
  | .define stack name value => s.onStack stack fun k => (k, k.define s.store name value)
  | .assign stack name value => s.onStack stack fun k => (k, k.assign s.store name value)
  | .set id name value => { s with store := s.store.set id name value }
  | .erase id name => { s with store := s.store.erase id name }
  | .clear id => { s with store := s.store.clear id }

/-- Stacks consist of scopes of the store, and no scope holds a name twice. -/
structure Standing (s : Stacks) : Prop where
  valid : ∀ k ∈ s.all, ∀ id ∈ k.chain, id < s.store.tables.size
  distinct : ∀ id, (s.store.bindings id).Distinct

namespace Standing

variable {s : Stacks}

theorem empty : Standing {} where
  valid _ member := absurd member List.not_mem_nil
  distinct _ := OrderedMap.distinct_empty

/-- A store with at least the scopes of this one, none of which holds a name twice. -/
theorem store (standing : s.Standing) {store : ScopeStore}
    (size : s.store.tables.size ≤ store.tables.size)
    (distinct : ∀ id, (store.bindings id).Distinct) : Standing { s with store := store } where
  valid k member id inChain := (standing.valid k member id inChain).trans_le size
  distinct := distinct

theorem modify (standing : s.Standing) (id : Nat) {f : OrderedMap Value → OrderedMap Value}
    (keeps : ∀ m : OrderedMap Value, m.Distinct → (f m).Distinct) :
    Standing { s with store := s.store.modify id f } := by
  refine standing.store (by simp [ScopeStore.modify]) fun other => ?_
  rcases s.store.bindings_modify id other f with same | changed
  · rw [same]
    exact standing.distinct other
  · rw [changed]
    exact keeps _ (standing.distinct other)

theorem set (standing : s.Standing) (id : Nat) (name : String) (value : Value) :
    Standing { s with store := s.store.set id name value } :=
  standing.modify id fun _ distinct => distinct.insert name value

theorem assign (standing : s.Standing) (k : ScopeStack) (name : String) (value : Value) :
    Standing { s with store := k.assign s.store name value } := by
  rw [k.assign_eq]
  exact standing.set _ name value

theorem new (standing : s.Standing) (name : String) :
    Standing { s with store := (s.store.new name).2 } := by
  refine standing.store (by simp [ScopeStore.new]) fun id => ?_
  rw [ScopeStore.bindings_new]
  exact standing.distinct id

/-- One more stack of scopes of the store. -/
theorem all (standing : s.Standing) {all : List ScopeStack}
    (valid : ∀ k ∈ all, k ∈ s.all ∨ ∀ id ∈ k.chain, id < s.store.tables.size) :
    Standing { s with all := all } where
  valid k member := by
    rcases valid k member with old | new
    · exact standing.valid k old
    · exact new
  distinct := standing.distinct

theorem onStack (standing : s.Standing) (stack : Nat) {f : ScopeStack → ScopeStack × ScopeStore}
    (keeps : ∀ k ∈ s.all, Standing { s with store := (f k).2 } ∧
      ∀ id ∈ (f k).1.chain, id < (f k).2.tables.size) : (s.onStack stack f).Standing := by
  unfold Stacks.onStack
  cases found : s.all[stack]? with
  | none => exact standing
  | some k =>
    obtain ⟨kept, valid⟩ := keeps k (List.mem_of_getElem? found)
    refine kept.all fun l member => ?_
    rcases List.mem_or_eq_of_mem_set member with old | rfl
    · exact .inl old
    · exact .inr valid

/-- Every command leaves stacks standing. -/
theorem run (standing : s.Standing) (c : Command) : (s.run c).Standing := by
  cases c with
  | scope name => exact standing.new name
  | stand root =>
    by_cases known : root < s.store.tables.size
    · rw [Stacks.run, if_pos known]
      refine standing.all fun k member => ?_
      rcases List.mem_append.1 member with old | new
      · exact .inl old
      · rw [List.mem_singleton.1 new]
        exact .inr fun id inChain => List.mem_singleton.1 inChain ▸ known
    · rwa [Stacks.run, if_neg known]
  | clone stack =>
    refine standing.all fun k member => .inl ?_
    rcases List.mem_append.1 member with old | new
    · exact old
    · exact List.mem_of_getElem? (Option.mem_toList.1 new)
  | push stack name =>
    refine standing.onStack stack fun k member => ⟨standing.new name, fun id inChain => ?_⟩
    have size : (s.store.new name).2.tables.size = s.store.tables.size + 1 :=
      Array.size_push _
    rcases List.mem_cons.1 inChain with new | old
    · show id < (s.store.new name).2.tables.size
      rw [size, new]
      exact Nat.lt_succ_self _
    · exact (standing.valid k member id old).trans_le (size ▸ Nat.le_succ _)
  | truncate stack depth =>
    refine standing.onStack stack fun k member => ⟨standing, fun id inChain => ?_⟩
    refine standing.valid k member id ?_
    rcases List.mem_append.1 inChain with inner | root
    · exact List.mem_append_left _ (List.mem_of_mem_drop inner)
    · exact List.mem_append_right _ root
  | define stack name value =>
    refine standing.onStack stack fun k member => ⟨standing.set k.current name value, ?_⟩
    exact (standing.set k.current name value).valid k member
  | assign stack name value =>
    refine standing.onStack stack fun k member => ⟨standing.assign k name value, ?_⟩
    exact (standing.assign k name value).valid k member
  | set id name value => exact standing.set id name value
  | erase id name => exact standing.modify id fun _ distinct => distinct.erase name
  | clear id => exact standing.modify id fun _ _ => OrderedMap.distinct_empty

/-- So do all commands together. -/
theorem runAll (standing : s.Standing) (commands : List Command) :
    (commands.foldl Stacks.run s).Standing := by
  induction commands generalizing s with
  | nil => exact standing
  | cons c commands ih => exact ih (standing.run c)

end Standing

end Stacks

/-- However scopes and stacks came about, a name that was assigned has the assigned value, and every
other name has the value it had, on this stack and on every other. One entry of one scope was
written: the innermost one of the stack in which the name was bound, or else the current one.
Assignments to different names can be made in either order, and so can bindings of a host: a script
that is run with them ends alike and leaves the same tables. -/
theorem assignment_along_scopes (commands : List Stacks.Command) :
    let s : Stacks := commands.foldl Stacks.run {}
    ∀ k ∈ s.all,
      (∀ name value,
        let after := k.assign s.store name value
        k.get? after name = some value ∧
        (∀ (l : ScopeStack) other, other ≠ name → l.get? after other = l.get? s.store other) ∧
        ∃ id ∈ k.chain, k.Receives s.store name id ∧ s.store.Written id name value after) ∧
      (∀ l ∈ s.all, ∀ name other, name ≠ other → ∀ value value',
        let first := l.assign (k.assign s.store name value) other value'
        let second := k.assign (l.assign s.store other value') name value
        first.SameTables second ∧
        ∀ id, (first.bindings id).entries.Perm (second.bindings id).entries) ∧
      ∀ bindings bindings' : List (String × Value),
        bindings.Perm bindings' → (bindings.map Prod.fst).Nodup →
        (k.assignAll s.store bindings).SameTables (k.assignAll s.store bindings') ∧
        ∀ (host : Host φ) budget source useCache (m : Machine φ), host.IgnoresOrder →
          m.self.scopes = k → m.world.scopes = s.store →
          (outcome (execute host budget source useCache bindings) m).1 =
            (outcome (execute host budget source useCache bindings') m).1 ∧
          (outcome (execute host budget source useCache bindings) m).2.SameTables
            (outcome (execute host budget source useCache bindings') m).2 := by
  intro s k member
  have standing : s.Standing := Stacks.Standing.empty.runAll commands
  refine ⟨fun name value => ?_, fun l member' name other apart value value' => ?_,
    fun bindings bindings' perm distinct => ⟨?_, ?_⟩⟩
  · have receives := k.receives_owner s.store name
    have valid := standing.valid k member _ receives.mem_chain
    refine ⟨ScopeStack.get?_assign_self valid value, fun l other apart => ?_, _,
      receives.mem_chain, receives, ?_⟩
    · exact l.get?_congr (k.get?_assign_other s.store apart value)
    · rw [k.assign_eq]
      exact ScopeStore.written_set valid name value
  · have same := k.assign_comm l s.store apart value value'
    refine ⟨same, fun id => same.entries_perm ?_ ?_⟩
    · exact ((standing.assign k name value).assign l other value').distinct id
    · exact ((standing.assign l other value').assign k name value).distinct id
  · exact k.assignAll_perm perm distinct (.refl s.store)
  · intro host budget source useCache m ignores _ _
    exact ignores.execute budget source useCache perm distinct m

/-- Two stacks on one root, in which a name is bound, one of them with a block on top. -/
def sharedRoot : List Stacks.Command :=
  [.scope rootName, .stand 0, .clone 0, .define 1 "x" (.int 0), .push 0 "block"]

/-- Inside the block the name of the root is overwritten, which the other stack sees, and a new name
is bound in the block. A script may be given both in either order. -/
theorem assignment_along_scopes_sharedRoot :
    let s : Stacks := sharedRoot.foldl Stacks.run {}
    let block : ScopeStack := ⟨0, [1]⟩
    let after := block.assign s.store "x" (.int 1)
    block ∈ s.all ∧ ⟨0, []⟩ ∈ s.all ∧
    block.get? after "x" = some (.int 1) ∧ after.get? 0 "x" = some (.int 1) ∧
    (block.assign after "y" (.int 2)).SameTables
      (block.assign (block.assign s.store "y" (.int 2)) "x" (.int 1)) ∧
    (block.assign after "y" (.int 2)).get? 1 "y" = some (.int 2) ∧
    Host.echo.IgnoresOrder ∧
    let m : Machine Unit := ⟨{ scopes := s.store }, { scopes := block }⟩
    (outcome (execute Host.echo 1 "x + y" false [("x", .int 1), ("y", .int 2)]) m).1 =
      (outcome (execute Host.echo 1 "x + y" false [("y", .int 2), ("x", .int 1)]) m).1 := by
  intro s block after
  have member : block ∈ s.all := by decide
  have ignores : Host.echo.IgnoresOrder := fun _ _ _ _ same => ⟨rfl, same⟩
  obtain ⟨read, commute, anyOrder⟩ := assignment_along_scopes (φ := Unit) sharedRoot block member
  have apart : "x" ≠ "y" := by decide
  refine ⟨member, by decide, (read "x" (.int 1)).1, rfl,
    (commute block member "x" "y" apart (.int 1) (.int 2)).1, rfl, ignores, ?_⟩
  exact ((anyOrder [("x", .int 1), ("y", .int 2)] _ (.swap _ _ []) (by decide)).2 Host.echo 1
    "x + y" false ⟨{ scopes := s.store }, { scopes := block }⟩ ignores rfl rfl).1

end Polyglot
