import Polyglot.Proofs.Forking
import Polyglot.Proofs.ScopeStack

/-!
# Where names appear

An assignment writes the innermost scope that binds its name, and only a name that no scope binds
is added, to the scope that is on top at that moment. So an evaluation may add names to the scope
that is on top when it starts, at the end of its table, and to no other scope that is there. A
block and a counting loop do everything in a scope of their own and add no name at all. What was
assigned to a name is what is read under it afterwards.
-/

namespace Polyglot

variable {φ : Type}

/-! ## The names of a scope -/

namespace ScopeStore

/-- The names bound in a scope, in the order in which they were bound first. -/
def names (s : ScopeStore) (id : Nat) : List String :=
  (s.bindings id).keys

@[simp] theorem size_modify (s : ScopeStore) (id : Nat) (f : OrderedMap Value → OrderedMap Value) :
    (s.modify id f).tables.size = s.tables.size := by
  simp [modify]

theorem bindings_modify_of_ne (s : ScopeStore) {id other : Nat} (apart : other ≠ id)
    (f : OrderedMap Value → OrderedMap Value) :
    (s.modify id f).bindings other = s.bindings other := by
  simp [bindings, scope, modify, Array.getD_eq_getD_getElem?, Array.getElem?_modify, Ne.symm apart]

theorem names_new (s : ScopeStore) (name : String) (id : Nat) :
    (s.new name).2.names id = s.names id := by
  rw [names, bindings_new, names]

theorem names_prefix_set (s : ScopeStore) (id other : Nat) (name : String) (value : Value) :
    s.names other <+: (s.set id name value).names other := by
  rcases s.bindings_modify id other fun bindings => bindings.insert name value with same | changed
  · simp [names, set, same]
  · rw [names, names, set, changed]
    exact OrderedMap.keys_prefix_insert _ _ _

/-- Writing a name that is there adds none. -/
theorem names_set_of_mem (s : ScopeStore) (id other : Nat) {name : String} (value : Value)
    (bound : name ∈ s.names id) : (s.set id name value).names other = s.names other := by
  by_cases same : other = id
  · subst same
    rcases s.bindings_modify other other fun bindings => bindings.insert name value
      with same | changed
    · rw [names, names, set, same]
    · rw [names, names, set, changed]
      exact OrderedMap.keys_insert_of_mem value bound
  · rw [names, names, set, bindings_modify_of_ne s same]

end ScopeStore

namespace ScopeStack

/-- Only the current scope gets a new name. -/
theorem names_assign_of_ne (k : ScopeStack) (s : ScopeStore) (name : String) (value : Value)
    {id : Nat} (apart : id ≠ k.current) : (k.assign s name value).names id = s.names id := by
  rw [assign_eq]
  unfold owner
  cases found : k.chain.find? fun id => (s.bindings id).contains name with
  | none => rw [Option.getD_none, ScopeStore.names, ScopeStore.set,
      ScopeStore.bindings_modify_of_ne s apart, ScopeStore.names]
  | some holder =>
    have holds := List.find?_some found
    exact s.names_set_of_mem holder id value (OrderedMap.contains_iff.1 holds)

end ScopeStack

/-! ## Reading back an assignment -/

namespace ScopeStore

theorem lt_size_of_contains {s : ScopeStore} {id : Nat} {name : String}
    (bound : (s.bindings id).contains name = true) : id < s.tables.size := by
  by_contra outside
  have empty : s.bindings id = {} := by
    simp [bindings, scope, Array.getD_eq_getD_getElem?,
      Array.getElem?_eq_none (Nat.not_lt.1 outside)]
  rw [empty] at bound
  cases bound

theorem get?_set_self {s : ScopeStore} {id : Nat} (valid : id < s.tables.size) (name : String)
    (value : Value) : (s.set id name value).get? id name = some value := by
  rw [get?, set, bindings_modify_self s valid, OrderedMap.get?_insert_self]

end ScopeStore

namespace ScopeStack

variable {k : ScopeStack} {s : ScopeStore} {name : String}

theorem chain_eq (k : ScopeStack) : k.chain = k.current :: k.chain.tail := by
  obtain ⟨root, inner⟩ := k
  cases inner <;> rfl

/-- The scope that an assignment writes exists if some scope binds the name or the current one
exists. -/
theorem owner_lt (known : (k.get? s name).isSome = true ∨ k.current < s.tables.size) :
    k.owner s name < s.tables.size := by
  unfold owner
  cases found : k.chain.find? fun id => (s.bindings id).contains name with
  | some id =>
    have bound := List.find?_some found
    exact ScopeStore.lt_size_of_contains bound
  | none =>
    rcases known with bound | valid
    · obtain ⟨value, read⟩ := Option.isSome_iff_exists.1 bound
      obtain ⟨id, member, here⟩ := List.exists_of_findSome?_eq_some read
      have free := List.find?_eq_none.1 found id member
      exact absurd (Option.isSome_of_eq_some here) free
    · exact valid

/-- What is assigned to a name is read under it. -/
theorem get?_assign_self (valid : k.owner s name < s.tables.size) (value : Value) :
    k.get? (k.assign s name value) name = some value := by
  have written := ScopeStore.get?_set_self valid name value
  rw [assign_eq]
  unfold get?
  cases found : k.chain.find? fun id => (s.bindings id).contains name with
  | none =>
    have own : k.owner s name = k.current := by
      rw [owner, found, Option.getD_none]
    rw [own] at written ⊢
    rw [k.chain_eq, List.findSome?_cons, written]
  | some id =>
    have own : k.owner s name = id := by
      rw [owner, found, Option.getD_some]
    rw [own] at written ⊢
    obtain ⟨binds, before, after, chain, free⟩ := List.find?_eq_some_iff_append.1 found
    have skipped :
        before.findSome? (fun other => (s.set id name value).get? other name) = none := by
      rw [List.findSome?_eq_none_iff]
      intro other member
      have unbound := free other member
      have apart : other ≠ id := by
        intro same
        rw [same, binds] at unbound
        cases unbound
      rw [ScopeStore.get?, ScopeStore.set, ScopeStore.bindings_modify_of_ne s apart]
      simpa [OrderedMap.contains] using unbound
    rw [chain, List.findSome?_append, skipped, Option.none_or, List.findSome?_cons, written]

end ScopeStack

theorem Machine.size_pushScope (m : Machine φ) (name : String) :
    (m.pushScope name).world.scopes.tables.size = m.world.scopes.tables.size + 1 := by
  simp [pushScope, emit, World.emit, ScopeStack.push, ScopeStore.new]

/-- A bound name has the value that was assigned to it last. -/
theorem Machine.get?_assign_of_bound {m : Machine φ} {name : String} {old : Value}
    (bound : m.get? name = some old) (value : Value) :
    (m.assign name value).get? name = some value :=
  ScopeStack.get?_assign_self (ScopeStack.owner_lt (.inl (Option.isSome_of_eq_some bound))) value

/-- In a new scope every name can be assigned. -/
theorem Machine.get?_assign_pushed (m : Machine φ) (scope name : String) (value : Value) :
    ((m.pushScope scope).assign name value).get? name = some value := by
  refine ScopeStack.get?_assign_self (ScopeStack.owner_lt (.inr ?_)) value
  rw [m.size_pushScope]
  exact Nat.lt_succ_self _

/-! ## What an evaluation does to names -/

/-- The stack is the same, no table is lost, and only the current scope may have gained names. -/
structure Machine.NamesKept (m m' : Machine φ) : Prop where
  stack : m'.self.scopes = m.self.scopes
  tables : m.world.scopes.tables.size ≤ m'.world.scopes.tables.size
  grown : ∀ id < m.world.scopes.tables.size, m.world.scopes.names id <+: m'.world.scopes.names id
  others : ∀ id < m.world.scopes.tables.size, id ≠ m.self.scopes.current →
    m'.world.scopes.names id = m.world.scopes.names id

namespace Machine.NamesKept

theorem refl (m : Machine φ) : m.NamesKept m :=
  ⟨rfl, Nat.le_refl _, fun _ _ => List.prefix_rfl, fun _ _ _ => rfl⟩

theorem trans {m₁ m₂ m₃ : Machine φ} (first : m₁.NamesKept m₂) (second : m₂.NamesKept m₃) :
    m₁.NamesKept m₃ where
  stack := second.stack.trans first.stack
  tables := first.tables.trans second.tables
  grown id valid := (first.grown id valid).trans (second.grown id (valid.trans_le first.tables))
  others id valid apart := by
    rw [second.others id (valid.trans_le first.tables) (first.stack ▸ apart)]
    exact first.others id valid apart

theorem assign (m : Machine φ) (name : String) (value : Value) :
    m.NamesKept (m.assign name value) where
  stack := rfl
  tables := by simp [Machine.assign, ScopeStack.assign_eq, ScopeStore.set]
  grown id _ := by
    show m.world.scopes.names id <+: (m.self.scopes.assign m.world.scopes name value).names id
    rw [ScopeStack.assign_eq]
    exact m.world.scopes.names_prefix_set _ id name value
  others _ _ apart := m.self.scopes.names_assign_of_ne m.world.scopes name value apart

/-- Steps that change neither scopes nor the interpreter. -/
theorem of_eq {m m' : Machine φ} (self : m'.self = m.self)
    (scopes : m'.world.scopes = m.world.scopes) : m.NamesKept m' where
  stack := by rw [self]
  tables := by rw [scopes]
  grown _ _ := by simp [scopes]
  others _ _ _ := by rw [scopes]

/-- A new scope is on top and has a number of its own, so what is done in it adds no name to the
scopes that were there. -/
theorem names_of_pushed {m m' : Machine φ} {name : String} (inner : (m.pushScope name).NamesKept m')
    {id : Nat} (valid : id < m.world.scopes.tables.size) :
    m'.world.scopes.names id = m.world.scopes.names id := by
  have pushed : id < (m.pushScope name).world.scopes.tables.size := by
    rw [m.size_pushScope]
    omega
  have apart : id ≠ (m.pushScope name).self.scopes.current := Nat.ne_of_lt valid
  rw [inner.others id pushed apart]
  exact m.world.scopes.names_new name id

theorem scope {m m' : Machine φ} {name : String} (inner : (m.pushScope name).NamesKept m') :
    m.NamesKept (m'.truncate m.self.scopes.depth) where
  stack := by
    show m'.self.scopes.truncate m.self.scopes.depth = m.self.scopes
    rw [inner.stack]
    exact ScopeStack.truncate_push _ m.world.scopes name
  tables := by
    have more := inner.tables
    rw [m.size_pushScope] at more
    exact Nat.le_of_succ_le more
  grown id valid := by
    show _ <+: m'.world.scopes.names id
    simp [inner.names_of_pushed valid]
  others id valid _ := inner.names_of_pushed valid

end Machine.NamesKept

/-- Functions of the host that write no binding and leave the stack as they found it. They may make
scopes of their own. -/
structure Host.KeepsBindings (host : Host φ) : Prop where
  stack : host.KeepsScopes
  tables : ∀ function args (m : Machine φ),
    m.world.scopes.tables.size ≤ (outcome (host function args) m).2.world.scopes.tables.size
  bindings : ∀ function args (m : Machine φ), ∀ id < m.world.scopes.tables.size,
    (outcome (host function args) m).2.world.scopes.bindings id = m.world.scopes.bindings id

theorem Host.KeepsBindings.invariant {host : Host φ} (keeps : host.KeepsBindings) :
    Invariant host Machine.NamesKept where
  refl := .refl
  trans := .trans
  assign := .assign
  newList _ _ := .of_eq rfl rfl
  newMap _ _ := .of_eq rfl rfl
  indexSet {m m'} owner key value written := by
    unfold Eval.indexSetIn at written
    split at written <;> cases written
    exact .of_eq rfl rfl
  report _ _ := .of_eq rfl rfl
  scope _ inner := inner.scope
  call function args m := {
    stack := keeps.stack function args m
    tables := keeps.tables function args m
    grown := fun id valid => by
      simp [ScopeStore.names, keeps.bindings function args m id valid]
    others := fun id valid _ => by
      simp [ScopeStore.names, keeps.bindings function args m id valid] }

/-! ## Nodes with a scope of their own -/

/-- Blocks and counting loops evaluate all their parts in a new scope. A loop over elements is not
among them: its collection is evaluated outside. -/
def Node.ownsScope : Node → Bool
  | block .. | countLoop .. => true
  | _ => false

/-- What such a node does in its scope preserves what each step preserves. -/
theorem Invariant.eval_ownsScope {host : Host φ} {R : Machine φ → Machine φ → Prop}
    (h : Invariant host R) (budget : Nat) {n : Node} (owns : n.ownsScope = true) :
    ∃ name, ∃ act : Eval φ Value,
      n.eval host budget = Eval.locate n.loc (Eval.withScope name act) ∧ Respects R act := by
  cases n with
  | block loc body =>
    refine ⟨"block", _, by rw [Node.eval], ?_⟩
    exact h.evalBody budget .null body
  | countLoop loc counter start bound direction step body retain =>
    have test := h.bind (h.boundOf bound.loc (h.eval budget bound)) fun limit =>
      h.bind (h.counterOf counter.item) fun current =>
        h.congruence.pure .anywhere (Eval.inRange direction limit current)
    have move := h.moveCounter counter.item direction step.loc (h.eval budget step)
    have repeated := h.repeatWhile test (h.eval budget body) move retain budget 0 #[]
    refine ⟨"for", _, by rw [Node.eval], ?_⟩
    refine h.bind (h.eval budget start) fun first => ?_
    refine h.bind (fun m => h.assign m counter.item first) fun _ => ?_
    exact h.bind repeated fun kept => h.loopValue retain kept
  | _ => simp [Node.ownsScope] at owns

/-! ## Evaluation on a stack -/

/-- The stack consists of different scopes of the store. A new interpreter has such a stack, and
entering scopes and evaluating keep it one. -/
def Machine.Stands (m : Machine φ) : Prop :=
  m.self.scopes.chain.Nodup ∧ ∀ id ∈ m.self.scopes.chain, id < m.world.scopes.tables.size

theorem World.stands_newInterpreter (w : World φ) :
    Machine.Stands ⟨w.newInterpreter.2, w.newInterpreter.1⟩ := by
  simp [Machine.Stands, newInterpreter, interpreterOn, ScopeStore.new, ScopeStack.chain]

theorem Machine.Stands.pushScope {m : Machine φ} (stands : m.Stands) (name : String) :
    (m.pushScope name).Stands := by
  have chain : (m.pushScope name).self.scopes.chain =
      m.world.scopes.tables.size :: m.self.scopes.chain := rfl
  unfold Machine.Stands
  rw [chain, m.size_pushScope, List.nodup_cons]
  refine ⟨⟨fun member => Nat.lt_irrefl _ (stands.2 _ member), stands.1⟩, ?_⟩
  intro id member
  rcases List.mem_cons.1 member with new | old
  · omega
  · exact (stands.2 id old).trans (Nat.lt_succ_self _)

theorem Machine.NamesKept.stands {m m' : Machine φ} (kept : m.NamesKept m') (stands : m.Stands) :
    m'.Stands := by
  unfold Machine.Stands
  rw [kept.stack]
  exact ⟨stands.1, fun id member => (stands.2 id member).trans_le kept.tables⟩

/-- However the evaluation of a node ends, no scope of the stack has lost a name, and no scope but
the one on top has gained any; the stack still stands. A block and a counting loop add no name to
any scope that was there before, on the stack or not. -/
theorem names_stay_inside (host : Host φ) (keeps : host.KeepsBindings) (budget : Nat) (n : Node)
    (m : Machine φ) (stands : m.Stands) :
    let after := (outcome (n.eval host budget) m).2
    after.Stands ∧ after.self.scopes = m.self.scopes ∧
    (∀ id ∈ m.self.scopes.chain, m.world.scopes.names id <+: after.world.scopes.names id) ∧
    (∀ id ∈ m.self.scopes.chain.tail, after.world.scopes.names id = m.world.scopes.names id) ∧
    (n.ownsScope = true → ∀ id < m.world.scopes.tables.size,
      after.world.scopes.names id = m.world.scopes.names id) := by
  have kept := keeps.invariant.eval budget n m
  have split := m.self.scopes.chain_eq
  refine ⟨kept.stands stands, kept.stack, ?_, ?_, ?_⟩
  · exact fun id member => kept.grown id (stands.2 id member)
  · intro id member
    have distinct := stands.1
    rw [split, List.nodup_cons] at distinct
    refine kept.others id (stands.2 id (List.mem_of_mem_tail member)) ?_
    intro top
    exact distinct.1 (top ▸ member)
  · intro owns id valid
    obtain ⟨name, act, same, respects⟩ := keeps.invariant.eval_ownsScope budget owns
    rw [same, Eval.outcome_locate, Eval.outcome_withScope]
    exact (respects (m.pushScope name)).names_of_pushed valid

/-- A block that writes one name that is bound outside and one that is not. -/
def writingBlock : Node :=
  .block default
    [.assign default (.name default "x") (.constant default (.int 1)),
     .assign default (.name default "y") (.constant default (.int 2))]

/-- Evaluated two scopes deep, the block gives the outer name its new value and binds the other one
in its own scope only. -/
theorem names_stay_inside_writingBlock :
    let m := (Machine.fresh.assign "x" (.int 0)).pushScope "outer"
    let after := (outcome (writingBlock.eval Host.echo 0) m).2
    Host.echo.KeepsBindings ∧ m.Stands ∧ m.self.scopes.chain = [1, 0] ∧
      (∀ id ∈ [1, 0], after.world.scopes.names id = m.world.scopes.names id) ∧
      m.world.scopes.names 0 = ["x"] ∧ after.get? "x" = some (.int 1) ∧
      after.world.scopes.names 2 = ["y"] := by
  have keeps : Host.echo.KeepsBindings :=
    ⟨fun _ _ _ => rfl, fun _ _ _ => Nat.le_refl _, fun _ _ _ _ _ => rfl⟩
  have fresh : Machine.fresh.Stands := World.stands_newInterpreter {}
  have stands := ((Machine.NamesKept.assign _ "x" (.int 0)).stands fresh).pushScope "outer"
  have unchanged := (names_stay_inside Host.echo keeps 0 writingBlock _ stands).2.2.2.2 rfl
  refine ⟨keeps, stands, rfl, ?_, by decide +kernel, rfl, by decide +kernel⟩
  exact fun id member => unchanged id (stands.2 id member)

end Polyglot
