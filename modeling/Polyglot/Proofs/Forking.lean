import Polyglot.Proofs.Cache
import Polyglot.Proofs.Eval.Preservation
import Polyglot.Proofs.OrderedMap
import Polyglot.Session

/-!
# Forks

A fork has the settings and the root bindings of the interpreter it was made from. It is a new
interpreter all the same, so its functions start as a copy of the global ones, over which those of
the original are put: it knows every function of the original, and besides them every global one
that the original does not know, even if the original had it taken away. The tables of a process
never hold a name twice, whatever was done in it; that is what makes a copy of a table equal to the
table.
-/

namespace Polyglot

variable {φ α β : Type}

/-! ## Tables without repeated names -/

namespace ScopeStore

theorem bindings_new (s : ScopeStore) (name : String) (id : Nat) :
    (s.new name).2.bindings id = s.bindings id := by
  simp only [bindings, scope, new, Array.getD_eq_getD_getElem?, Array.getElem?_push]
  split
  · subst id
    simp
  · rfl

theorem bindings_modify (s : ScopeStore) (id other : Nat)
    (f : OrderedMap Value → OrderedMap Value) :
    (s.modify id f).bindings other = s.bindings other ∨
      (s.modify id f).bindings other = f (s.bindings other) := by
  simp only [bindings, scope, modify, Array.getD_eq_getD_getElem?, Array.getElem?_modify]
  by_cases same : id = other
  · cases s.tables[other]? <;> simp [same]
  · simp [same]

theorem bindings_modify_self (s : ScopeStore) {id : Nat} (valid : id < s.tables.size)
    (f : OrderedMap Value → OrderedMap Value) : (s.modify id f).bindings id = f (s.bindings id) := by
  simp only [bindings, scope, modify, Array.getD_eq_getD_getElem?, Array.getElem?_modify, if_true,
    Array.getElem?_eq_getElem valid, Option.map_some, Option.getD_some]

end ScopeStore

/-- No table of the world that interpreters share holds a name twice. -/
structure World.Proper (w : World φ) : Prop where
  globals : w.globals.Distinct
  bindings : ∀ id, (w.scopes.bindings id).Distinct

/-- Neither does the table of functions of the interpreter at work. -/
structure Machine.Proper (m : Machine φ) : Prop where
  world : m.world.Proper
  functions : m.self.functions.Distinct

/-- Nor that of any interpreter of a session. -/
structure Session.Proper (s : Session φ) : Prop where
  world : s.world.Proper
  functions : ∀ {vm i}, s.interpreters.get? vm = some i → i.functions.Distinct

namespace World.Proper

variable {w : World φ}

theorem modify (proper : w.Proper) (id : Nat) {f : OrderedMap Value → OrderedMap Value}
    (keeps : ∀ m : OrderedMap Value, m.Distinct → (f m).Distinct) :
    ({ w with scopes := w.scopes.modify id f } : World φ).Proper where
  globals := proper.globals
  bindings other := by
    rcases w.scopes.bindings_modify id other f with same | changed
    · exact same ▸ proper.bindings other
    · exact changed ▸ keeps _ (proper.bindings other)

theorem newScope (proper : w.Proper) (name : String) :
    ({ w with scopes := (w.scopes.new name).2 } : World φ).Proper where
  globals := proper.globals
  bindings id := w.scopes.bindings_new name id ▸ proper.bindings id

theorem assign (proper : w.Proper) (k : ScopeStack) (name : String) (value : Value) :
    ({ w with scopes := k.assign w.scopes name value } : World φ).Proper := by
  rw [ScopeStack.assign_eq]
  exact proper.modify _ fun _ distinct => distinct.insert name value

theorem assignAll (proper : w.Proper) (k : ScopeStack) (entries : List (String × Value)) :
    ({ w with scopes := k.assignAll w.scopes entries } : World φ).Proper := by
  induction entries generalizing w with
  | nil => exact proper
  | cons e entries ih => exact ih (proper.assign k e.1 e.2)

theorem compile (proper : w.Proper) (source : String) (useCache : Bool) :
    (w.compile source useCache).2.Proper := by
  have anew : (w.compileNew source).2.Proper := by
    cases parsed : Program.parse w.languages source with
    | error e =>
      obtain ⟨_, result⟩ := World.compileNew_of_rejected parsed
      rw [result]
      exact { proper with }
    | ok p =>
      obtain ⟨_, _, _, result⟩ := World.compileNew_of_accepted parsed
      rw [result]
      exact { proper with }
  unfold World.compile
  split
  · split
    · exact { proper with }
    · split <;> rename_i result <;> rw [result] at anew <;> exact { anew with }
  · exact anew

theorem registerLanguages (proper : w.Proper) (languages : List (String × List (String × String))) :
    (w.registerLanguages languages).2.Proper := by
  induction languages generalizing w with
  | nil => exact proper
  | cons l languages ih =>
    have first : (w.registerLanguage l.1 l.2).2.Proper := by
      unfold World.registerLanguage
      split <;> exact { proper with }
    rw [World.registerLanguages]
    split <;> rename_i result <;> rw [result] at first
    · exact first
    · exact ih first

/-- A new interpreter starts with a copy of the global functions. -/
theorem newInterpreter (proper : w.Proper) :
    w.newInterpreter.1.functions.Distinct ∧ w.newInterpreter.2.Proper :=
  ⟨proper.globals, proper.newScope rootName⟩

theorem copyAttributes (proper : w.Proper) {i : Interpreter φ} (distinct : i.functions.Distinct)
    (other : Interpreter φ) :
    (w.copyAttributes i other).1.functions.Distinct ∧ (w.copyAttributes i other).2.Proper :=
  ⟨distinct.insertAll _, proper.modify _ fun _ distinct => distinct.insertAll _⟩

end World.Proper

/-! ## Running scripts -/

/-- Functions of the host that put no name twice into a table. -/
def Host.KeepsProper (host : Host φ) : Prop :=
  ∀ function args m, m.Proper → (outcome (host function args) m).2.Proper

theorem Host.KeepsProper.invariant {host : Host φ} (keeps : host.KeepsProper) :
    Invariant host fun m m' => m.Proper → m'.Proper where
  refl _ proper := proper
  trans first second proper := second (first proper)
  assign m name value proper := ⟨proper.world.assign m.self.scopes name value, proper.functions⟩
  newList _ _ proper := ⟨{ proper.world with }, proper.functions⟩
  newMap _ _ proper := ⟨{ proper.world with }, proper.functions⟩
  indexSet {m m'} owner key value written proper := by
    unfold Eval.indexSetIn at written
    split at written <;> cases written
    exact ⟨{ proper.world with }, proper.functions⟩
  report _ _ proper := ⟨{ proper.world with }, proper.functions⟩
  scope {m m'} name inner proper := by
    have pushed : (m.pushScope name).Proper :=
      ⟨{ proper.world.newScope name with }, proper.functions⟩
    exact ⟨{ (inner pushed).world with }, (inner pushed).functions⟩
  call := keeps

namespace Machine.Proper

variable {host : Host φ} {m : Machine φ}

theorem executeProgram (proper : m.Proper) (keeps : host.KeepsProper) (budget : Nat)
    (p : Program) : (outcome (executeProgram host budget p) m).2.Proper := by
  have started : (m.report (.started p.name p.body.length)).Proper :=
    ⟨{ proper.world with }, proper.functions⟩
  have ended := keeps.invariant.evalStatements budget .null p.body _ started
  rw [outcome_executeProgram]
  exact ⟨{ ended.world with }, ended.functions⟩

theorem execute (proper : m.Proper) (keeps : host.KeepsProper) (budget : Nat) (source : String)
    (useCache : Bool) (bindings : List (String × Value)) :
    (outcome (execute host budget source useCache bindings) m).2.Proper := by
  have compiled : (compileIn source useCache m).2.Proper :=
    ⟨proper.world.compile source useCache, proper.functions⟩
  rw [outcome_execute]
  rcases result : compileIn source useCache m with ⟨e | program, m'⟩ <;> rw [result] at compiled
  · exact compiled
  · have bound : (m'.assignAll bindings).Proper :=
      ⟨compiled.world.assignAll m'.self.scopes bindings, compiled.functions⟩
    exact bound.executeProgram keeps budget program.program

end Machine.Proper

/-! ## Sessions -/

namespace Session

/-- What is done in a session gives something with the property and keeps names apart. -/
def Gives (property : α → Prop) (act : SessionM φ α) : Prop :=
  ∀ s, s.Proper → property (act.run s).1 ∧ (act.run s).2.Proper

theorem Gives.bind {P : α → Prop} {Q : β → Prop} {act : SessionM φ α} {next : α → SessionM φ β}
    (first : Gives P act) (rest : ∀ a, P a → Gives Q (next a)) : Gives Q (act >>= next) :=
  fun s proper => rest _ (first s proper).1 _ (first s proper).2

theorem gives_pure {P : α → Prop} {a : α} (holds : P a) : Gives P (pure a : SessionM φ α) :=
  fun _ proper => ⟨holds, proper⟩

theorem gives_get : Gives Proper (get : SessionM φ (Session φ)) :=
  fun _ proper => ⟨proper, proper⟩

theorem gives_onWorld {P : α → Prop} {f : World φ → α × World φ}
    (keeps : ∀ w, w.Proper → P (f w).1 ∧ (f w).2.Proper) : Gives P (onWorld f) :=
  fun s proper =>
    ⟨(keeps s.world proper.world).1, (keeps s.world proper.world).2, proper.functions⟩

theorem Proper.store {s : Session φ} (proper : s.Proper) {w : World φ} (world : w.Proper)
    (vm : String) {i : Interpreter φ} (distinct : i.functions.Distinct) :
    ({ s with world := w, interpreters := s.interpreters.insert vm i } : Session φ).Proper where
  world := world
  functions {name j} found := by
    by_cases same : name = vm
    · subst same
      have stored := (OrderedMap.get?_insert_self s.interpreters name i).symm.trans found
      cases stored
      exact distinct
    · rw [OrderedMap.get?_insert_of_ne s.interpreters same] at found
      exact proper.functions found

theorem gives_store (vm : String) {i : Interpreter φ} (distinct : i.functions.Distinct) :
    Gives (fun _ => True) (store vm i) :=
  fun _ proper => ⟨trivial, proper.store proper.world vm distinct⟩

theorem gives_interpreter (vm : String) :
    Gives (fun i => i.functions.Distinct) (interpreter vm : SessionM φ (Interpreter φ)) := by
  refine gives_get.bind fun s proper => ?_
  split
  · rename_i i found
    exact gives_pure (proper.functions found)
  · exact (gives_onWorld fun _ proper => proper.newInterpreter).bind fun i distinct =>
      (gives_store vm distinct).bind fun _ _ => gives_pure distinct

theorem gives_onMachine (vm : String) {act : StateM (Machine φ) α}
    (keeps : ∀ m, m.Proper → (act.run m).2.Proper) : Gives (fun _ => True) (onMachine vm act) := by
  refine (gives_interpreter vm).bind fun i distinct s proper => ⟨trivial, ?_⟩
  have ended := keeps ⟨s.world, i⟩ ⟨proper.world, distinct⟩
  exact proper.store ended.world vm ended.functions

theorem gives_configure (vm : String) (config : Config) :
    Gives (fun _ => True) (configure vm config : SessionM φ (Except ConfigError Unit)) := by
  have made : Gives (fun result => ∀ i, result = .ok i → i.functions.Distinct)
      (onWorld fun w : World φ => w.configuredInterpreter config) := by
    refine gives_onWorld fun w proper => ?_
    have registered := proper.registerLanguages config.languages
    unfold World.configuredInterpreter
    split <;> rename_i result <;> rw [result] at registered
    · exact ⟨fun i isI => (by cases isI), registered⟩
    · refine ⟨fun i isI => ?_, registered.newInterpreter.2⟩
      cases isI
      exact registered.newInterpreter.1
  refine made.bind fun result distinct => ?_
  split
  · exact (gives_store vm (distinct _ rfl)).bind fun _ _ => gives_pure trivial
  · exact gives_pure trivial

/-- What is done in a session. -/
inductive Step (φ : Type)
  | registerGlobal (name : String) (function : φ)
  | unregisterGlobal (name : String)
  | create (vm : String)
  | share (vm source : String)
  | fork (vm source : String)
  | configure (vm : String) (config : Config)
  | merge (vm source : String)
  | register (vm name : String) (function : φ)
  | unregister (vm name : String)
  | assign (vm name : String) (value : Value)
  | setCancelled (vm : String) (cancelled : Bool)
  | execute (vm source : String) (useCache : Bool) (bindings : List (String × Value))
  | eval (vm source : String)
  | executeProgram (vm : String) (p : Program)
  | run (source : String) (useCache : Bool)

variable (host : Host φ) (budget : Nat)

/-- The session after a step, which may have failed. -/
def Step.apply (s : Session φ) : Step φ → Session φ
  | registerGlobal name function => ((Session.registerGlobal name function).run s).2
  | unregisterGlobal name => ((Session.unregisterGlobal name).run s).2
  | create vm => ((Session.create vm).run s).2
  | share vm source => ((Session.share vm source).run s).2
  | fork vm source => ((Session.fork vm source).run s).2
  | configure vm config => ((Session.configure vm config).run s).2
  | merge vm source => ((Session.merge vm source).run s).2
  | register vm name function => ((Session.register vm name function).run s).2
  | unregister vm name => ((Session.unregister vm name).run s).2
  | assign vm name value => ((Session.assign vm name value).run s).2
  | setCancelled vm cancelled => ((Session.setCancelled vm cancelled).run s).2
  | execute vm source useCache bindings =>
    ((Session.execute host budget vm source useCache bindings).run s).2
  | eval vm source => ((Session.eval host budget vm source).run s).2
  | executeProgram vm p => ((Session.executeProgram host budget vm p).run s).2
  | run source useCache => ((Session.run host budget source useCache).run s).2

variable {host}

theorem Step.proper_apply (keeps : host.KeepsProper) {s : Session φ} (proper : s.Proper)
    (step : Step φ) : (step.apply host budget s).Proper := by
  cases step with
  | registerGlobal name function =>
    exact ⟨⟨proper.world.globals.insert name function, proper.world.bindings⟩, proper.functions⟩
  | unregisterGlobal name =>
    exact ⟨⟨proper.world.globals.erase name, proper.world.bindings⟩, proper.functions⟩
  | create vm =>
    have made : Gives (fun _ => True) (Session.create vm : SessionM φ Unit) :=
      (gives_onWorld fun _ proper => proper.newInterpreter).bind fun _ => gives_store vm
    exact (made s proper).2
  | share vm source =>
    have made : Gives (fun _ => True) (Session.share vm source : SessionM φ Unit) :=
      (gives_interpreter source).bind fun _ _ => gives_get.bind fun _ proper =>
        gives_store vm proper.world.globals
    exact (made s proper).2
  | fork vm source =>
    have made : Gives (fun _ => True) (Session.fork vm source : SessionM φ Unit) :=
      (gives_interpreter source).bind fun other _ =>
        (gives_onWorld fun _ proper =>
          proper.newInterpreter.2.copyAttributes proper.globals other).bind fun _ => gives_store vm
    exact (made s proper).2
  | configure vm config => exact (gives_configure vm config s proper).2
  | merge vm source =>
    have merged : Gives (fun _ => True) (Session.merge vm source : SessionM φ Unit) :=
      (gives_interpreter vm).bind fun _ distinct => (gives_interpreter source).bind fun other _ =>
        (gives_onWorld fun _ proper => proper.copyAttributes distinct other).bind fun _ =>
          gives_store vm
    exact (merged s proper).2
  | register vm name function =>
    have done : Gives (fun _ => True) (Session.register vm name function) :=
      gives_onMachine vm fun _ proper =>
        ⟨{ proper.world with }, proper.functions.insert name function⟩
    exact (done s proper).2
  | unregister vm name =>
    have done : Gives (fun _ => True) (Session.unregister vm name : SessionM φ Bool) :=
      gives_onMachine vm fun _ proper => ⟨{ proper.world with }, proper.functions.erase name⟩
    exact (done s proper).2
  | assign vm name value =>
    have done : Gives (fun _ => True) (Session.assign vm name value : SessionM φ Unit) :=
      gives_onMachine vm fun m proper =>
        ⟨proper.world.assign m.self.scopes name value, proper.functions⟩
    exact (done s proper).2
  | setCancelled vm cancelled =>
    have done : Gives (fun _ => True) (Session.setCancelled vm cancelled : SessionM φ Unit) :=
      gives_onMachine vm fun _ proper => ⟨proper.world, proper.functions⟩
    exact (done s proper).2
  | execute vm source useCache bindings =>
    have ran : Gives (fun _ => True) (Session.execute host budget vm source useCache bindings) :=
      gives_onMachine vm fun _ proper => proper.execute keeps budget source useCache bindings
    exact (ran s proper).2
  | eval vm source =>
    have ran : Gives (fun _ => True) (Session.eval host budget vm source) :=
      gives_onMachine vm fun m proper => proper.execute keeps budget source m.self.config.cache []
    exact (ran s proper).2
  | executeProgram vm p =>
    have ran : Gives (fun _ => True) (Session.executeProgram host budget vm p) :=
      gives_onMachine vm fun _ proper => proper.executeProgram keeps budget p
    exact (ran s proper).2
  | run source useCache =>
    have started : Machine.Proper ⟨s.world.newInterpreter.2, s.world.newInterpreter.1⟩ :=
      ⟨proper.world.newInterpreter.2, proper.world.newInterpreter.1⟩
    exact ⟨(started.execute keeps budget source useCache []).world, proper.functions⟩

theorem Step.proper_applyAll (keeps : host.KeepsProper) (steps : List (Step φ)) {s : Session φ}
    (proper : s.Proper) : (steps.foldl (Step.apply host budget) s).Proper := by
  induction steps generalizing s with
  | nil => exact proper
  | cons step steps ih => exact ih (step.proper_apply budget keeps proper)

/-- A session in which nothing was done yet. -/
theorem proper_new : ({} : Session φ).Proper where
  world := ⟨OrderedMap.distinct_empty, fun _ => OrderedMap.distinct_empty⟩
  functions found := by cases found

end Session

/-! ## Forking -/

namespace World

variable (w : World φ) (i : Interpreter φ)

/-- A fork knows what the original knows, and else what is known globally. -/
theorem get?_fork (distinct : i.functions.Distinct) (name : String) :
    (w.fork i).1.functions.get? name = (i.functions.get? name).or (w.globals.get? name) :=
  OrderedMap.get?_insertAll distinct w.globals name

theorem memory_newScope (name : String) :
    ({ w with scopes := (w.scopes.new name).2 } : World φ).memory i = w.memory i :=
  w.scopes.bindings_new name i.scopes.root

/-- The root bindings of a fork are those of the original. -/
theorem memory_fork (distinct : (w.memory i).Distinct) :
    (w.fork i).2.memory (w.fork i).1 = w.memory i := by
  let store := (w.scopes.new rootName).2
  have valid : w.scopes.tables.size < store.tables.size := by
    simp [store, ScopeStore.new]
  have blank : store.bindings w.scopes.tables.size = {} := by
    rw [w.scopes.bindings_new]
    simp [ScopeStore.bindings, ScopeStore.scope, Array.getD_eq_getD_getElem?]
  calc (w.fork i).2.memory (w.fork i).1
      = (store.modify w.scopes.tables.size fun bindings => bindings.insertAll
          (({ w with scopes := store } : World φ).memory i).entries).bindings
            w.scopes.tables.size := rfl
    _ = OrderedMap.insertAll {} (w.memory i).entries := by
      rw [store.bindings_modify_self valid, blank, w.memory_newScope i rootName]
    _ = w.memory i := distinct.insertAll_empty

end World

/-- Whatever was done in a session, a fork of one of its interpreters has the root bindings and the
settings of the original, and resolves a name as the original does, or else as the global functions
do. So it resolves every name as the original does exactly if the original knows every name that is
known globally. -/
theorem fork_resolves (host : Host φ) (budget : Nat) (keeps : host.KeepsProper)
    (steps : List (Session.Step φ)) {s : Session φ}
    (reached : steps.foldl (Session.Step.apply host budget) {} = s) {vm : String}
    {a : Interpreter φ} (present : s.interpreters.get? vm = some a) :
    (s.world.fork a).2.memory (s.world.fork a).1 = s.world.memory a ∧
    (s.world.fork a).1.config = a.config ∧
    (∀ name, (s.world.fork a).1.functions.get? name =
      (a.functions.get? name).or (s.world.globals.get? name)) ∧
    ((∀ name, (s.world.fork a).1.functions.get? name = a.functions.get? name) ↔
      ∀ name, s.world.globals.contains name → a.functions.contains name) := by
  have proper : s.Proper := by
    rw [← reached]
    exact Session.Step.proper_applyAll budget keeps steps Session.proper_new
  have resolves := s.world.get?_fork a (proper.functions present)
  refine ⟨s.world.memory_fork a (proper.world.bindings _), rfl, resolves, fun same name => ?_,
    fun known name => ?_⟩
  · intro global
    rw [OrderedMap.contains, ← same name, resolves name, Option.isSome_or]
    exact Bool.or_eq_true_iff.2 (.inr global)
  · rw [resolves name]
    cases found : a.functions.get? name with
    | some function => rfl
    | none =>
      cases global : s.world.globals.get? name with
      | none => rfl
      | some function =>
        have absurdity := known name (by simp [OrderedMap.contains, global])
        simp [OrderedMap.contains, found] at absurdity

/-- Steps after which an interpreter has lost a function that is still known globally. -/
def losing : List (Session.Step Unit) :=
  [.registerGlobal "f" (), .create "a", .unregister "a" "f"]

/-- A host whose functions give back their first argument changes no table. -/
theorem Host.echo_keepsProper : Host.echo.KeepsProper :=
  fun _ _ _ proper => proper

/-- A fork of that interpreter keeps its settings, and resolves the lost function as it is known
globally. -/
theorem fork_resolves_losing :
    Host.echo.KeepsProper ∧
    ∃ a, (losing.foldl (Session.Step.apply Host.echo 1) {}).interpreters.get? "a" = some a ∧
      ((losing.foldl (Session.Step.apply Host.echo 1) {}).world.fork a).1.config = a.config ∧
      a.functions.get? "f" = none ∧
      (losing.foldl (Session.Step.apply Host.echo 1) {}).world.globals.get? "f" = some () ∧
      ((losing.foldl (Session.Step.apply Host.echo 1) {}).world.fork a).1.functions.get? "f" =
        some () := by
  obtain ⟨a, present, lost⟩ : ∃ a, (losing.foldl (Session.Step.apply Host.echo 1)
      {}).interpreters.get? "a" = some a ∧ a.functions.get? "f" = none := ⟨_, rfl, rfl⟩
  have global : (losing.foldl (Session.Step.apply Host.echo 1) {}).world.globals.get? "f" =
      some () := rfl
  obtain ⟨-, settings, resolves, -⟩ :=
    fork_resolves Host.echo 1 Host.echo_keepsProper losing rfl present
  have regained := resolves "f"
  rw [lost, global] at regained
  exact ⟨Host.echo_keepsProper, a, present, settings, lost, global, regained⟩

/-- That fork resolves the function again, which the original does not. -/
theorem fork_regains :
    ∃ a, (losing.foldl (Session.Step.apply Host.echo 1) {}).interpreters.get? "a" = some a ∧
      a.functions.get? "f" = none ∧
      ((losing.foldl (Session.Step.apply Host.echo 1) {}).world.fork a).1.functions.get? "f" =
        some () :=
  ⟨_, rfl, rfl, rfl⟩

end Polyglot
