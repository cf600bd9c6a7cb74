import Polyglot.Proofs.Eval.Preservation

/-!
# The stack of scopes

Evaluation enters scopes and leaves them again however it ends: by a value, by leaving or
continuing a loop, by returning, or by a failure. Afterwards the stack is the one it started with,
and while it goes on the scopes below stay where they were. So an interpreter has one root scope
all its life.
-/

namespace Polyglot

variable {φ α : Type}

namespace ScopeStack

@[simp] theorem truncate_depth (k : ScopeStack) : k.truncate k.depth = k := by
  simp [truncate, depth]

/-- Truncating to the old depth takes back one push. -/
@[simp] theorem truncate_push (k : ScopeStack) (s : ScopeStore) (name : String) :
    (k.push s name).1.truncate k.depth = k := by
  simp [truncate, depth, push, ScopeStore.new]

/-- The scopes of `k` are the outermost ones of `l`. -/
def Below (k l : ScopeStack) : Prop :=
  k.root = l.root ∧ k.inner <:+ l.inner

theorem Below.refl (k : ScopeStack) : k.Below k :=
  ⟨rfl, List.suffix_rfl⟩

theorem Below.push {k l : ScopeStack} (h : k.Below l) (s : ScopeStore) (name : String) :
    k.Below (l.push s name).1 :=
  ⟨h.1, h.2.trans (List.suffix_cons _ _)⟩

end ScopeStack

/-! ## One evaluation -/

/-- Functions of the host that leave the stack as they found it. -/
def Host.KeepsScopes (host : Host φ) : Prop :=
  ∀ function args m, (outcome (host function args) m).2.self.scopes = m.self.scopes

theorem scopes_indexSetIn {m m' : Machine φ} {owner key value : Value}
    (h : Eval.indexSetIn m owner key value = .ok m') : m'.self = m.self := by
  unfold Eval.indexSetIn at h
  split at h <;> cases h
  rfl

/-- Having the same stack before and after is what each step preserves. -/
theorem Host.KeepsScopes.invariant {host : Host φ} (keeps : host.KeepsScopes) :
    Invariant host fun m m' => m'.self.scopes = m.self.scopes where
  refl _ := rfl
  trans first second := second.trans first
  assign _ _ _ := rfl
  newList _ _ := rfl
  newMap _ _ := rfl
  indexSet _ _ _ written := by rw [scopes_indexSetIn written]
  report _ _ := rfl
  scope {m m'} name same := by
    show m'.self.scopes.truncate m.self.scopes.depth = m.self.scopes
    rw [same]
    exact ScopeStack.truncate_push _ m.world.scopes name
  call := keeps

theorem scopes_executeProgram {host : Host φ} (keeps : host.KeepsScopes) (budget : Nat)
    (p : Program) (m : Machine φ) :
    (outcome (executeProgram host budget p) m).2.self.scopes = m.self.scopes := by
  have kept := keeps.invariant.evalStatements budget .null p.body
    (m.report (.started p.name p.body.length))
  rw [outcome_executeProgram]
  show (outcome (Program.evalStatements host budget .null p.body)
    (m.report (.started p.name p.body.length))).2.self.scopes.truncate m.self.scopes.depth = _
  rw [kept]
  exact ScopeStack.truncate_depth _

/-! ## While it goes on

Only functions of the host see the machine during an evaluation. They see the scopes that were
there at its start, in their places: another host that does the same on such machines cannot be
told from the first. -/

/-- Two actions do the same above the scopes of `k`, and leave the stack as they found it. -/
def AgreeAbove (k : ScopeStack) (act act' : Eval φ α) : Prop :=
  ∀ m, k.Below m.self.scopes →
    outcome act m = outcome act' m ∧ (outcome act m).2.self.scopes = m.self.scopes

/-- Two hosts do the same above the scopes of `k`. -/
def Host.AgreeAbove (k : ScopeStack) (host host' : Host φ) : Prop :=
  ∀ function args m, k.Below m.self.scopes →
    outcome (host function args) m = outcome (host' function args) m

theorem agreeAbove_same {k : ScopeStack} {act : Eval φ α}
    (kept : Respects (fun m m' => m'.self.scopes = m.self.scopes) act) :
    Polyglot.AgreeAbove k act act :=
  fun m _ => ⟨rfl, kept m⟩

theorem Host.AgreeAbove.congruence {k : ScopeStack} {host host' : Host φ}
    (keeps : host.KeepsScopes) (agree : Host.AgreeAbove k host host') :
    Congruence host host' id (fun _ {_} act act' => Polyglot.AgreeAbove k act act') where
  pure _ _ _ _ _ := ⟨rfl, rfl⟩
  bind {_ _ _ act act' next next'} first rest m below := by
    obtain ⟨same, kept⟩ := first m below
    rw [outcome_bind, outcome_bind, ← same]
    rcases result : outcome act m with ⟨e | a, m'⟩
    · rw [result] at kept
      exact ⟨rfl, kept⟩
    · rw [result] at kept
      obtain ⟨sameRest, keptRest⟩ := rest a m' (kept ▸ below)
      exact ⟨sameRest, keptRest.trans kept⟩
  observe _ _ _ _ _ _ := ⟨rfl, rfl⟩
  fail _ _ _ _ _ _ := ⟨rfl, rfl⟩
  badTarget _ _ := ⟨rfl, rfl⟩
  unfinished _ _ _ _ := ⟨rfl, rfl⟩
  returned _ _ _ _ _ := ⟨rfl, rfl⟩
  breakLoop _ _ _ := ⟨rfl, rfl⟩
  continueLoop _ _ _ := ⟨rfl, rfl⟩
  locate loc inner m below := by
    obtain ⟨same, kept⟩ := inner m below
    rw [Eval.outcome_locate, Eval.outcome_locate, ← same]
    exact ⟨rfl, kept⟩
  pass inner m below := by
    obtain ⟨same, kept⟩ := inner m below
    rw [Eval.outcome_pass, Eval.outcome_pass, ← same]
    exact ⟨rfl, kept⟩
  withScope {_ _ act act'} name inner m below := by
    obtain ⟨same, kept⟩ := inner (m.pushScope name) (below.push m.world.scopes name)
    rw [Eval.outcome_withScope, Eval.outcome_withScope, ← same]
    exact ⟨rfl, keeps.invariant.scope name kept⟩
  assign _ _ _ _ _ := ⟨rfl, rfl⟩
  newList _ _ _ _ := ⟨rfl, rfl⟩
  newMap _ _ _ _ := ⟨rfl, rfl⟩
  indexSet _ owner key v := agreeAbove_same (keeps.invariant.writeIndex owner key v)
  unknownCall _ _ _ _ := ⟨rfl, rfl⟩
  call _ function args m below := by
    rw [Eval.outcome_ofAction, Eval.outcome_ofAction, ← agree function args m below]
    exact ⟨rfl, keeps function args m⟩

theorem Host.AgreeAbove.eval {k : ScopeStack} {host host' : Host φ} (keeps : host.KeepsScopes)
    (agree : Host.AgreeAbove k host host') (budget : Nat) (n : Node) :
    Polyglot.AgreeAbove k (n.eval host budget) (n.eval host' budget) := by
  have related := (agree.congruence keeps).eval budget n (Node.sound_anywhere n)
  rwa [Node.mapLoc_id] at related

theorem Host.AgreeAbove.evalStatements {k : ScopeStack} {host host' : Host φ}
    (keeps : host.KeepsScopes) (agree : Host.AgreeAbove k host host') (budget : Nat)
    (ns : List Node) : ∀ last m, k.Below m.self.scopes →
      outcome (Program.evalStatements host budget last ns) m =
        outcome (Program.evalStatements host' budget last ns) m := by
  induction ns with
  | nil => exact fun _ _ _ => rfl
  | cons n ns ih =>
    intro last m below
    obtain ⟨same, kept⟩ := agree.eval keeps budget n m below
    rw [outcome_evalStatements_cons, outcome_evalStatements_cons, ← same]
    rcases result : outcome (n.eval host budget) m with ⟨exit | v, m'⟩
    · cases exit <;> rfl
    · rw [result] at kept
      exact ih v m' (kept ▸ below)

theorem Host.AgreeAbove.executeProgram {k : ScopeStack} {host host' : Host φ}
    (keeps : host.KeepsScopes) (agree : Host.AgreeAbove k host host') (budget : Nat)
    (p : Program) (m : Machine φ) (below : k.Below m.self.scopes) :
    outcome (executeProgram host budget p) m = outcome (executeProgram host' budget p) m := by
  rw [outcome_executeProgram, outcome_executeProgram,
    agree.evalStatements keeps budget p.body .null (m.report _) below]

/-! ## The life of an interpreter -/

/-- What is done with an interpreter, or with the world around it. -/
inductive Command (φ : Type)
  | execute (source : String) (useCache : Bool) (bindings : List (String × Value))
  | eval (source : String)
  | executeProgram (p : Program)
  | assign (name : String) (value : Value)
  | register (name : String) (function : φ)
  | unregister (name : String)
  /-- Merges the functions and root bindings of another interpreter into this one. -/
  | merge (other : Interpreter φ)
  | setCancelled (cancelled : Bool)
  /-- Any change of what the interpreters of a process share. -/
  | elsewhere (change : World φ → World φ)

/-- The machine after a command. -/
def Command.run (host : Host φ) (budget : Nat) (m : Machine φ) : Command φ → Machine φ
  | execute source useCache bindings =>
    (outcome (Polyglot.execute host budget source useCache bindings) m).2
  | eval source => (outcome (evalSource host budget source) m).2
  | executeProgram p => (outcome (Polyglot.executeProgram host budget p) m).2
  | assign name value => m.assign name value
  | register name function => m.register name function
  | unregister name => (m.unregister name).2
  | merge other =>
    let (self, world) := m.world.copyAttributes m.self other
    ⟨world, self⟩
  | setCancelled cancelled => { m with self := { m.self with cancelled := cancelled } }
  | elsewhere change => { m with world := change m.world }

theorem self_compileIn (source : String) (useCache : Bool) (m : Machine φ) :
    (compileIn source useCache m).2.self = m.self := rfl

theorem scopes_execute {host : Host φ} (keeps : host.KeepsScopes) (budget : Nat)
    (source : String) (useCache : Bool) (bindings : List (String × Value)) (m : Machine φ) :
    (outcome (execute host budget source useCache bindings) m).2.self.scopes = m.self.scopes := by
  rw [outcome_execute]
  have same := self_compileIn source useCache m
  rcases result : compileIn source useCache m with ⟨e | compiled, m'⟩ <;> rw [result] at same
  · exact congrArg Interpreter.scopes same
  · exact (scopes_executeProgram keeps budget _ _).trans (congrArg Interpreter.scopes same)

theorem Command.scopes_run {host : Host φ} (keeps : host.KeepsScopes) (budget : Nat)
    (m : Machine φ) (c : Command φ) : (c.run host budget m).self.scopes = m.self.scopes := by
  cases c with
  | execute source useCache bindings =>
    exact scopes_execute keeps budget source useCache bindings m
  | eval source => exact scopes_execute keeps budget source m.self.config.cache [] m
  | executeProgram p => exact scopes_executeProgram keeps budget p m
  | assign | register | unregister | merge | setCancelled | elsewhere => rfl

theorem Command.scopes_runAll {host : Host φ} (keeps : host.KeepsScopes) (budget : Nat)
    (cs : List (Command φ)) (m : Machine φ) :
    (cs.foldl (Command.run host budget) m).self.scopes = m.self.scopes := by
  induction cs generalizing m with
  | nil => rfl
  | cons c cs ih => exact (ih _).trans (c.scopes_run keeps budget m)

/-- However an evaluation or a program ends, the stack is afterwards what it was before: the same
scopes in the same order. While it goes on, functions of the host are called only above these
scopes. No stack is empty, and no command to an interpreter changes its root. -/
theorem scopes_restored (host : Host φ) (budget : Nat) (keeps : host.KeepsScopes) :
    (∀ (n : Node) m, (outcome (n.eval host budget) m).2.self.scopes = m.self.scopes) ∧
    (∀ (p : Program) m,
      (outcome (executeProgram host budget p) m).2.self.scopes = m.self.scopes) ∧
    (∀ (m : Machine φ) (host' : Host φ), Host.AgreeAbove m.self.scopes host host' →
      (∀ n : Node, outcome (n.eval host budget) m = outcome (n.eval host' budget) m) ∧
      ∀ p, outcome (executeProgram host budget p) m = outcome (executeProgram host' budget p) m) ∧
    (∀ m : Machine φ, m.self.scopes.chain ≠ []) ∧
    ∀ (cs : List (Command φ)) m,
      (cs.foldl (Command.run host budget) m).self.scopes.root = m.self.scopes.root := by
  refine ⟨keeps.invariant.eval budget, scopes_executeProgram keeps budget, ?_, ?_, ?_⟩
  · intro m host' agree
    have below := ScopeStack.Below.refl m.self.scopes
    exact ⟨fun n => (agree.eval keeps budget n m below).1,
      fun p => agree.executeProgram keeps budget p m below⟩
  · exact fun m => m.self.scopes.chain_ne_nil
  · exact fun cs m => congrArg ScopeStack.root (Command.scopes_runAll keeps budget cs m)

/-- A loop over one element whose body divides by zero. -/
def failingLoop : Node :=
  .eachLoop default (.single ⟨"x", default⟩) (.array default [.constant default (.int 1)])
    (.block default [.binary default (.name default "x") .div (.constant default (.int 0))]) true

/-- A failure two scopes deep leaves the stack as it was. -/
theorem scopes_restored_failingLoop :
    Host.echo.KeepsScopes ∧
    (outcome (failingLoop.eval Host.echo 1) Machine.fresh).1 =
      .error (.stopped (.failed ⟨.divisionByZero, some default⟩)) ∧
    (outcome (failingLoop.eval Host.echo 1) Machine.fresh).2.self.scopes =
      Machine.fresh.self.scopes :=
  ⟨fun _ _ _ => rfl, rfl, (scopes_restored Host.echo 1 fun _ _ _ => rfl).1 _ _⟩

end Polyglot
