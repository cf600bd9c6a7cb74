import Polyglot.Proofs.Names

/-!
# Isolation of interpreters

Interpreters of one session share a root scope only if one of them was made on the root of the
other. `Lineage` follows, from the steps of a session alone, which interpreters these are: making
an interpreter founds a new line, making one on the root of another joins its line. What is done to
an interpreter is seen by those of its line and by no other, and the functions and settings of
every other interpreter stay as they are.
-/

namespace Polyglot

variable {φ α : Type}

/-! ## What a run writes -/

theorem ScopeStack.current_mem_chain (k : ScopeStack) : k.current ∈ k.chain := by
  rw [k.chain_eq]
  exact List.mem_cons_self

theorem ScopeStack.owner_mem_chain (k : ScopeStack) (s : ScopeStore) (name : String) :
    k.owner s name ∈ k.chain := by
  unfold owner
  cases found : k.chain.find? fun id => (s.bindings id).contains name with
  | none => exact k.current_mem_chain
  | some holder => exact List.mem_of_find?_eq_some found

/-- The stack is the same, no table is lost, and only scopes of the stack were written. -/
structure Machine.WritesOwn (m m' : Machine φ) : Prop where
  stack : m'.self.scopes = m.self.scopes
  tables : m.world.scopes.tables.size ≤ m'.world.scopes.tables.size
  others : ∀ id < m.world.scopes.tables.size, id ∉ m.self.scopes.chain →
    m'.world.scopes.bindings id = m.world.scopes.bindings id

namespace Machine.WritesOwn

variable {m m' : Machine φ}

theorem of_eq (stack : m'.self.scopes = m.self.scopes)
    (scopes : m'.world.scopes = m.world.scopes) : m.WritesOwn m' :=
  ⟨stack, by rw [scopes], fun _ _ _ => by rw [scopes]⟩

theorem trans {m₁ m₂ m₃ : Machine φ} (first : m₁.WritesOwn m₂) (second : m₂.WritesOwn m₃) :
    m₁.WritesOwn m₃ where
  stack := second.stack.trans first.stack
  tables := first.tables.trans second.tables
  others id valid apart := by
    rw [second.others id (valid.trans_le first.tables) (first.stack ▸ apart)]
    exact first.others id valid apart

theorem assign (m : Machine φ) (name : String) (value : Value) :
    m.WritesOwn (m.assign name value) where
  stack := rfl
  tables := by simp [Machine.assign, ScopeStack.assign_eq, ScopeStore.set]
  others id _ apart := by
    have other : id ≠ m.self.scopes.owner m.world.scopes name :=
      fun same => apart (same ▸ m.self.scopes.owner_mem_chain m.world.scopes name)
    show (m.self.scopes.assign m.world.scopes name value).bindings id = m.world.scopes.bindings id
    rw [ScopeStack.assign_eq]
    exact m.world.scopes.bindings_modify_of_ne other _

theorem assignAll (m : Machine φ) (entries : List (String × Value)) :
    m.WritesOwn (m.assignAll entries) := by
  induction entries generalizing m with
  | nil => exact of_eq rfl rfl
  | cons e entries ih => exact (assign m e.1 e.2).trans (ih (m.assign e.1 e.2))

theorem scope {name : String} (inner : (m.pushScope name).WritesOwn m') :
    m.WritesOwn (m'.truncate m.self.scopes.depth) where
  stack := by
    show m'.self.scopes.truncate m.self.scopes.depth = m.self.scopes
    rw [inner.stack]
    exact ScopeStack.truncate_push _ m.world.scopes name
  tables := by
    have more := inner.tables
    rw [m.size_pushScope] at more
    exact Nat.le_of_succ_le more
  others id valid apart := by
    have chain : (m.pushScope name).self.scopes.chain =
        m.world.scopes.tables.size :: m.self.scopes.chain := rfl
    have below : id < (m.pushScope name).world.scopes.tables.size := by
      rw [m.size_pushScope]
      omega
    have outside : id ∉ (m.pushScope name).self.scopes.chain := by
      rw [chain, List.mem_cons]
      rintro (new | old)
      · omega
      · exact apart old
    exact (inner.others id below outside).trans (m.world.scopes.bindings_new name id)

end Machine.WritesOwn

/-- Functions of the host act on the interpreter they are given only: they leave its stack as they
found it and write no scope but those on it and those they make. -/
def Host.Confined (host : Host φ) : Prop :=
  ∀ function args, Respects Machine.WritesOwn (host function args)

theorem World.size_newInterpreter (w : World φ) :
    w.newInterpreter.2.scopes.tables.size = w.scopes.tables.size + 1 := by
  simp [newInterpreter, ScopeStore.new]

theorem World.scopes_compile (w : World φ) (source : String) (useCache : Bool) :
    (w.compile source useCache).2.scopes = w.scopes := by
  have anew : (w.compileNew source).2.scopes = w.scopes := by
    cases parsed : Program.parse w.languages source with
    | error e =>
      obtain ⟨_, result⟩ := World.compileNew_of_rejected parsed
      rw [result]
    | ok p =>
      obtain ⟨_, _, _, result⟩ := World.compileNew_of_accepted parsed
      rw [result]
  unfold World.compile
  split
  · split
    · rfl
    · split <;> rename_i result <;> rw [result] at anew <;> exact anew
  · exact anew

namespace Host.Confined

variable {host : Host φ}

theorem invariant (confined : host.Confined) : Invariant host Machine.WritesOwn where
  refl _ := .of_eq rfl rfl
  trans := .trans
  assign := .assign
  newList _ _ := .of_eq rfl rfl
  newMap _ _ := .of_eq rfl rfl
  indexSet {m m'} owner key value written := by
    unfold Eval.indexSetIn at written
    split at written <;> cases written
    exact .of_eq rfl rfl
  report _ _ := .of_eq rfl rfl
  scope _ inner := inner.scope
  call := confined

theorem executeProgram (confined : host.Confined) (budget : Nat) (p : Program) (m : Machine φ) :
    m.WritesOwn (outcome (executeProgram host budget p) m).2 := by
  rw [outcome_executeProgram]
  have started : m.WritesOwn (m.report (.started p.name p.body.length)) := .of_eq rfl rfl
  have ran := started.trans (confined.invariant.evalStatements budget .null p.body _)
  refine ran.trans (.of_eq ?_ rfl)
  show ScopeStack.truncate _ m.self.scopes.depth = _
  rw [ran.stack, ScopeStack.truncate_depth]

theorem execute (confined : host.Confined) (budget : Nat) (source : String) (useCache : Bool)
    (bindings : List (String × Value)) (m : Machine φ) :
    m.WritesOwn (outcome (execute host budget source useCache bindings) m).2 := by
  have compiled : m.WritesOwn (compileIn source useCache m).2 :=
    .of_eq rfl (m.world.scopes_compile source useCache)
  rw [outcome_execute]
  rcases result : compileIn source useCache m with ⟨e | program, m'⟩ <;> rw [result] at compiled
  · exact compiled
  · exact compiled.trans ((Machine.WritesOwn.assignAll m' bindings).trans
      (confined.executeProgram budget program.program _))

end Host.Confined

/-! ## Lines of interpreters -/

theorem OrderedMap.of_get?_insert {m : OrderedMap α} {name other : String} {value v : α}
    (found : (m.insert name value).get? other = some v) :
    (other = name ∧ v = value) ∨ (other ≠ name ∧ m.get? other = some v) := by
  by_cases same : other = name
  · subst same
    rw [get?_insert_self] at found
    exact .inl ⟨rfl, (Option.some.inj found).symm⟩
  · rw [get?_insert_of_ne m same] at found
    exact .inr ⟨same, found⟩

/-- Which line each interpreter of a session belongs to, and the number of the next line. -/
structure Lineage where
  line : String → Option Nat := fun _ => none
  next : Nat := 0

namespace Lineage

/-- An interpreter of a new line. -/
def found (l : Lineage) (vm : String) : Lineage where
  line name := if name = vm then some l.next else l.line name
  next := l.next + 1

/-- An interpreter of the line of another. -/
def join (l : Lineage) (vm source : String) : Lineage where
  line name := if name = vm then l.line source else l.line name
  next := l.next

/-- An interpreter of a new line, if there is none under the name. -/
def ensure (l : Lineage) (vm : String) : Lineage :=
  if (l.line vm).isSome then l else l.found vm

theorem line_found_self (l : Lineage) (vm : String) : (l.found vm).line vm = some l.next :=
  if_pos rfl

theorem line_found_of_ne (l : Lineage) {vm name : String} (other : name ≠ vm) :
    (l.found vm).line name = l.line name :=
  if_neg other

end Lineage

/-- The languages of a configuration can all be registered. -/
def Config.acceptable (config : Config) : Bool :=
  config.languages.all fun language => (Dictionary.unknownEntry? language.2).isNone

/-- Languages are registered unless one of them has an unknown entry; the scopes stay as they
are. -/
theorem World.registerLanguages_result (w : World φ)
    (languages : List (String × List (String × String))) :
    (w.registerLanguages languages).2.scopes = w.scopes ∧
    (w.registerLanguages languages).1.isOk =
      languages.all fun language => (Dictionary.unknownEntry? language.2).isNone := by
  induction languages generalizing w with
  | nil => exact ⟨rfl, rfl⟩
  | cons language languages ih =>
    obtain ⟨tag, entries⟩ := language
    rw [World.registerLanguages, World.registerLanguage]
    cases unknown : Dictionary.unknownEntry? entries with
    | some entry => simp [unknown, Except.isOk, Except.toBool]
    | none =>
      obtain ⟨scopes, accepted⟩ := ih
        { w.emit .debug (.dictionaryRegistered tag (Dictionary.ofEntries tag entries).words.size)
          with
          languages := w.languages.register (Dictionary.ofEntries tag entries)
          cache := {} }
      refine ⟨scopes, accepted.trans ?_⟩
      rw [List.all_cons, unknown]
      rfl

namespace Session

/-- The lines after a step. Only what makes interpreters plays a part in it. -/
def Step.trace (l : Lineage) : Step φ → Lineage
  | registerGlobal .. | unregisterGlobal .. | run .. => l
  | create vm => l.found vm
  | configure vm config => if config.acceptable then l.found vm else l
  | share vm source => (l.ensure source).join vm source
  | fork vm source => (l.ensure source).found vm
  | merge vm source => (l.ensure vm).ensure source
  | register vm .. | unregister vm .. | assign vm .. | setCancelled vm .. | execute vm ..
  | eval vm .. | executeProgram vm .. => l.ensure vm

/-- The interpreter that a step makes or is done to. -/
def Step.subject? : Step φ → Option String
  | registerGlobal .. | unregisterGlobal .. | run .. => none
  | create vm | configure vm .. | share vm .. | fork vm .. | merge vm .. | register vm ..
  | unregister vm .. | assign vm .. | setCancelled vm .. | execute vm .. | eval vm ..
  | executeProgram vm .. => some vm

/-- The interpreter whose memory a step is to change. -/
def Step.writer? : Step φ → Option String
  | registerGlobal .. | unregisterGlobal .. | run .. | create .. | configure .. | share ..
  | fork .. => none
  | merge vm .. | register vm .. | unregister vm .. | assign vm .. | setCancelled vm ..
  | execute vm .. | eval vm .. | executeProgram vm .. => some vm

/-- The lines after the steps of a session. -/
def lineage (steps : List (Step φ)) : Lineage :=
  steps.foldl Step.trace {}

/-- The interpreters of a session are those of a lineage: between scripts each stands on its root
alone, which is there, and two of them have the same root exactly if they are of one line. -/
structure Traced (l : Lineage) (s : Session φ) : Prop where
  known : ∀ {vm i}, s.interpreters.get? vm = some i → ∃ line < l.next, l.line vm = some line
  unknown : ∀ {vm}, s.interpreters.get? vm = none → l.line vm = none
  idle : ∀ {vm i}, s.interpreters.get? vm = some i → i.scopes.inner = []
  valid : ∀ {vm i}, s.interpreters.get? vm = some i →
    i.scopes.root < s.world.scopes.tables.size
  roots : ∀ {vm vm' i i'}, s.interpreters.get? vm = some i → s.interpreters.get? vm' = some i' →
    (i.scopes.root = i'.scopes.root ↔ l.line vm = l.line vm')

/-- Every interpreter but perhaps one is as it was, and so is its memory. -/
structure Spares (vm? : Option String) (s s' : Session φ) : Prop where
  interpreter : ∀ {name i}, some name ≠ vm? → s.interpreters.get? name = some i →
    s'.interpreters.get? name = some i
  memory : ∀ {name i}, some name ≠ vm? → s.interpreters.get? name = some i →
    s'.world.memory i = s.world.memory i

/-- Every interpreter but perhaps one is as it was, and so is its memory unless it is of the line of
a given one. -/
structure Isolates (l : Lineage) (vm? writer? : Option String) (s s' : Session φ) : Prop where
  interpreter : ∀ {name i}, some name ≠ vm? → s.interpreters.get? name = some i →
    s'.interpreters.get? name = some i
  memory : ∀ {name i}, some name ≠ vm? → s.interpreters.get? name = some i →
    s'.world.memory i = s.world.memory i ∨
      ∃ vm line, writer? = some vm ∧ l.line vm = some line ∧ l.line name = some line

theorem Spares.isolates {vm? : Option String} {s s' : Session φ} (spares : Spares vm? s s')
    (l : Lineage) (writer? : Option String) : Isolates l vm? writer? s s' :=
  ⟨spares.interpreter, fun other found => .inl (spares.memory other found)⟩

variable {l : Lineage} {s : Session φ}

/-- What is known of the interpreter that is put under a name makes the lines those of the new
session. -/
theorem Traced.store (traced : s.Traced l) {w : World φ}
    (tables : s.world.scopes.tables.size ≤ w.scopes.tables.size) (vm : String)
    {i : Interpreter φ} (idle : i.scopes.inner = [])
    (valid : i.scopes.root < w.scopes.tables.size) {line next : Nat} (more : l.next ≤ next)
    (below : line < next)
    (roots : ∀ {name j}, name ≠ vm → s.interpreters.get? name = some j →
      (i.scopes.root = j.scopes.root ↔ some line = l.line name)) :
    ({ s with world := w, interpreters := s.interpreters.insert vm i } : Session φ).Traced
      ⟨fun name => if name = vm then some line else l.line name, next⟩ := by
  refine ⟨?_, ?_, ?_, ?_, ?_⟩
  · intro name j found
    rcases OrderedMap.of_get?_insert found with ⟨rfl, rfl⟩ | ⟨other, before⟩
    · exact ⟨line, below, if_pos rfl⟩
    · obtain ⟨line', less, known⟩ := traced.known before
      exact ⟨line', less.trans_le more, (if_neg other).trans known⟩
  · intro name missing
    have other : name ≠ vm := by
      rintro rfl
      cases (s.interpreters.get?_insert_self name i).symm.trans missing
    exact (if_neg other).trans
      (traced.unknown ((s.interpreters.get?_insert_of_ne other i).symm.trans missing))
  · intro name j found
    rcases OrderedMap.of_get?_insert found with ⟨rfl, rfl⟩ | ⟨-, before⟩
    · exact idle
    · exact traced.idle before
  · intro name j found
    rcases OrderedMap.of_get?_insert found with ⟨rfl, rfl⟩ | ⟨-, before⟩
    · exact valid
    · exact (traced.valid before).trans_le tables
  · intro name name' j j' found found'
    rcases OrderedMap.of_get?_insert found with ⟨rfl, rfl⟩ | ⟨other, before⟩ <;>
      rcases OrderedMap.of_get?_insert found' with ⟨rfl, rfl⟩ | ⟨other', before'⟩
    · simp
    · simpa [other'] using roots other' before'
    · have side := eq_comm.trans ((roots other before).trans eq_comm)
      simpa [other] using side
    · simpa [other, other'] using traced.roots before before'

/-- An interpreter on a root of its own founds a line, and no other interpreter notices. -/
theorem Traced.storeNew (traced : s.Traced l) {w : World φ} (vm : String) {i : Interpreter φ}
    (idle : i.scopes.inner = []) (root : i.scopes.root = s.world.scopes.tables.size)
    (tables : w.scopes.tables.size = s.world.scopes.tables.size + 1)
    (bindings : ∀ id < s.world.scopes.tables.size,
      w.scopes.bindings id = s.world.scopes.bindings id) :
    ({ s with world := w, interpreters := s.interpreters.insert vm i } : Session φ).Traced
      (l.found vm) ∧
    Spares (some vm) s { s with world := w, interpreters := s.interpreters.insert vm i } := by
  refine ⟨traced.store (by omega) vm idle (by omega) (Nat.le_succ _) (Nat.lt_succ_self _) ?_, ?_,
    ?_⟩
  · intro name j other found
    obtain ⟨line, less, known⟩ := traced.known found
    have valid := traced.valid found
    rw [known, Option.some.injEq]
    exact ⟨fun same => by omega, fun same => by omega⟩
  · intro name j other found
    rw [OrderedMap.get?_insert_of_ne _ (by simpa using other)]
    exact found
  · intro name j other found
    exact bindings _ (traced.valid found)

/-- An interpreter that goes on on its own root stays in its line. -/
theorem Traced.update (traced : s.Traced l) {w : World φ}
    (tables : s.world.scopes.tables.size ≤ w.scopes.tables.size) {vm : String}
    {i j : Interpreter φ} (found : s.interpreters.get? vm = some i) (same : j.scopes = i.scopes) :
    ({ s with world := w, interpreters := s.interpreters.insert vm j } : Session φ).Traced l := by
  obtain ⟨line, below, known⟩ := traced.known found
  have stored := traced.store (i := j) tables vm (same ▸ traced.idle found)
    (same ▸ (traced.valid found).trans_le tables) (Nat.le_refl _) below fun other before => by
      rw [same, ← known]
      exact traced.roots found before
  have unchanged : (fun name => if name = vm then some line else l.line name) = l.line := by
    funext name
    by_cases here : name = vm
    · rw [if_pos here, here, known]
    · rw [if_neg here]
  rw [unchanged] at stored
  exact stored

/-! ## Interpreters by name -/

/-- No interpreter is lost or changed, and no binding. -/
structure GoesOn (s s' : Session φ) : Prop where
  interpreter : ∀ {name i}, s.interpreters.get? name = some i →
    s'.interpreters.get? name = some i
  bindings : ∀ id, s'.world.scopes.bindings id = s.world.scopes.bindings id

theorem Spares.after {vm? : Option String} {s₁ s₂ : Session φ} (first : s.GoesOn s₁)
    (rest : Spares vm? s₁ s₂) : Spares vm? s s₂ where
  interpreter other found := rest.interpreter other (first.interpreter found)
  memory {_ i} other found :=
    (rest.memory other (first.interpreter found)).trans (first.bindings i.scopes.root)

theorem run_interpreter_of_some {vm : String} {i : Interpreter φ}
    (found : s.interpreters.get? vm = some i) : (interpreter vm).run s = (i, s) := by
  simp [interpreter, found]
  rfl

theorem run_interpreter_of_none {vm : String} (missing : s.interpreters.get? vm = none) :
    (interpreter vm).run s = (s.world.newInterpreter.1,
      { s with
        world := s.world.newInterpreter.2
        interpreters := s.interpreters.insert vm s.world.newInterpreter.1 }) := by
  simp [interpreter, missing]
  rfl

theorem Traced.create (traced : s.Traced l) (vm : String) :
    ({ s with
        world := s.world.newInterpreter.2
        interpreters := s.interpreters.insert vm s.world.newInterpreter.1 } : Session φ).Traced
      (l.found vm) ∧
    Spares (some vm) s { s with
      world := s.world.newInterpreter.2
      interpreters := s.interpreters.insert vm s.world.newInterpreter.1 } :=
  traced.storeNew vm rfl rfl s.world.size_newInterpreter fun id _ =>
    s.world.scopes.bindings_new rootName id

/-- Asking for an interpreter makes one if there is none. -/
theorem Traced.ensure (traced : s.Traced l) (vm : String) :
    ∃ i s₁, (interpreter vm).run s = (i, s₁) ∧ s₁.Traced (l.ensure vm) ∧
      s₁.interpreters.get? vm = some i ∧ s.GoesOn s₁ := by
  cases found : s.interpreters.get? vm with
  | some i =>
    obtain ⟨line, -, known⟩ := traced.known found
    rw [Lineage.ensure, known]
    exact ⟨i, s, run_interpreter_of_some found, traced, found, fun there => there, fun _ => rfl⟩
  | none =>
    rw [Lineage.ensure, traced.unknown found]
    refine ⟨_, _, run_interpreter_of_none found, (traced.create vm).1,
      s.interpreters.get?_insert_self vm _, fun {name i} there => ?_, ?_⟩
    · have other : name ≠ vm := by
        rintro rfl
        cases found.symm.trans there
      rw [OrderedMap.get?_insert_of_ne _ other]
      exact there
    · exact s.world.scopes.bindings_new rootName

/-- An interpreter that is of the line of another once a third is there was so before. -/
theorem Traced.line_of_ensure (traced : s.Traced l) {vm name new : String} {i : Interpreter φ}
    (found : s.interpreters.get? name = some i) {line : Nat}
    (here : (l.ensure new).line vm = some line) (there : (l.ensure new).line name = some line) :
    l.line vm = some line ∧ l.line name = some line := by
  obtain ⟨line', below, known⟩ := traced.known found
  unfold Lineage.ensure at here there
  split at here
  · rw [if_pos ‹_›] at there
    exact ⟨here, there⟩
  · rename_i unknown
    rw [if_neg unknown] at there
    have apart : name ≠ new := by
      rintro rfl
      exact unknown (known ▸ rfl)
    rw [Lineage.line_found_of_ne l apart] at there
    cases known.symm.trans there
    -- The line of a new interpreter has a number that no line has.
    have other : vm ≠ new := by
      rintro rfl
      rw [Lineage.line_found_self, Option.some.injEq] at here
      omega
    rw [Lineage.line_found_of_ne l other] at here
    exact ⟨here, there⟩

/-! ## Steps -/

/-- Writing the root of an interpreter is noticed in its line only. -/
theorem Traced.writeRoot (traced : s.Traced l) {w : World φ}
    (tables : s.world.scopes.tables.size ≤ w.scopes.tables.size) {vm : String}
    {i j : Interpreter φ} (found : s.interpreters.get? vm = some i) (same : j.scopes = i.scopes)
    (others : ∀ id < s.world.scopes.tables.size, id ≠ i.scopes.root →
      w.scopes.bindings id = s.world.scopes.bindings id) :
    ({ s with world := w, interpreters := s.interpreters.insert vm j } : Session φ).Traced l ∧
    Isolates l (some vm) (some vm) s
      { s with world := w, interpreters := s.interpreters.insert vm j } := by
  refine ⟨traced.update tables found same, ?_, ?_⟩
  · intro name k other there
    rw [OrderedMap.get?_insert_of_ne _ (by simpa using other)]
    exact there
  · intro name k other there
    by_cases root : k.scopes.root = i.scopes.root
    · obtain ⟨line, -, known⟩ := traced.known there
      exact .inr ⟨vm, line, rfl, (traced.roots there found).1 root ▸ known, known⟩
    · exact .inl (others _ (traced.valid there) root)

theorem Isolates.after {vm? writer? : Option String} {new : String} {s₁ s₂ : Session φ}
    (rest : Isolates (l.ensure new) vm? writer? s₁ s₂) (traced : s.Traced l)
    (first : s.GoesOn s₁) : Isolates l vm? writer? s s₂ where
  interpreter other found := rest.interpreter other (first.interpreter found)
  memory {name i} other found := by
    rcases rest.memory other (first.interpreter found) with same | ⟨vm, line, isVm, here, there⟩
    · exact .inl (same.trans (first.bindings i.scopes.root))
    · exact .inr ⟨vm, line, isVm, traced.line_of_ensure found here there⟩

/-- What an interpreter at work does is noticed in its line only. -/
theorem Traced.onMachine (traced : s.Traced l) (vm : String) {act : StateM (Machine φ) α}
    (writes : ∀ m, Machine.WritesOwn m (act.run m).2) :
    ((onMachine vm act).run s).2.Traced (l.ensure vm) ∧
    Isolates l (some vm) (some vm) s ((onMachine vm act).run s).2 := by
  obtain ⟨i, s₁, ran, traced₁, stored, goesOn⟩ := traced.ensure vm
  have written := writes ⟨s₁.world, i⟩
  have result : ((Session.onMachine vm act).run s).2 =
      { s₁ with
        world := (act.run ⟨s₁.world, i⟩).2.world
        interpreters := s₁.interpreters.insert vm (act.run ⟨s₁.world, i⟩).2.self } := by
    rw [Session.onMachine, StateT.run_bind, ran]
    rfl
  obtain ⟨traced₂, isolates⟩ := traced₁.writeRoot written.tables stored written.stack
    fun id valid apart => written.others id valid (by
      show id ∉ _ ++ [_]
      rw [traced₁.idle stored]
      simpa using apart)
  rw [result]
  exact ⟨traced₂, isolates.after traced goesOn⟩

theorem Traced.changeWorld (traced : s.Traced l) {w : World φ}
    (tables : s.world.scopes.tables.size ≤ w.scopes.tables.size)
    (bindings : ∀ id < s.world.scopes.tables.size,
      w.scopes.bindings id = s.world.scopes.bindings id) :
    ({ s with world := w } : Session φ).Traced l ∧ Spares none s { s with world := w } :=
  ⟨⟨traced.known, traced.unknown, traced.idle, fun found => (traced.valid found).trans_le tables,
    traced.roots⟩, fun _ found => found, fun _ found => bindings _ (traced.valid found)⟩

theorem Traced.share (traced : s.Traced l) (vm source : String) :
    ((Session.share vm source).run s).2.Traced ((l.ensure source).join vm source) ∧
    Spares (some vm) s ((Session.share vm source).run s).2 := by
  obtain ⟨other, s₁, ran, traced₁, stored, goesOn⟩ := traced.ensure source
  have result : ((Session.share vm source).run s).2 =
      { s₁ with interpreters :=
          s₁.interpreters.insert vm (s₁.world.interpreterOn other.scopes.root) } := by
    rw [Session.share, StateT.run_bind, ran]
    rfl
  obtain ⟨line, below, known⟩ := traced₁.known stored
  have valid : other.scopes.root < s₁.world.scopes.tables.size := traced₁.valid stored
  have joined := traced₁.store (i := s₁.world.interpreterOn other.scopes.root)
    (Nat.le_refl _) vm rfl valid (Nat.le_refl _) below fun {name j} _ found => by
      show other.scopes.root = j.scopes.root ↔ _
      rw [← known]
      exact traced₁.roots stored found
  rw [result, Lineage.join, known]
  refine ⟨joined, Spares.after goesOn ⟨fun apart found => ?_, fun _ _ => rfl⟩⟩
  rw [OrderedMap.get?_insert_of_ne _ (by simpa using apart)]
  exact found

theorem Traced.fork (traced : s.Traced l) (vm source : String) :
    ((Session.fork vm source).run s).2.Traced ((l.ensure source).found vm) ∧
    Spares (some vm) s ((Session.fork vm source).run s).2 := by
  obtain ⟨other, s₁, ran, traced₁, -, goesOn⟩ := traced.ensure source
  have result : ((Session.fork vm source).run s).2 =
      { s₁ with
        world := (s₁.world.fork other).2
        interpreters := s₁.interpreters.insert vm (s₁.world.fork other).1 } := by
    rw [Session.fork, StateT.run_bind, ran]
    rfl
  have tables : (s₁.world.fork other).2.scopes.tables.size = s₁.world.scopes.tables.size + 1 := by
    simp [World.fork, World.copyAttributes, World.newInterpreter, ScopeStore.setAll, ScopeStore.new]
  obtain ⟨traced₂, spares⟩ := traced₁.storeNew vm (i := (s₁.world.fork other).1) rfl rfl tables
    fun id valid => (ScopeStore.bindings_modify_of_ne _ (Nat.ne_of_lt valid) _).trans
      (ScopeStore.bindings_new _ rootName id)
  rw [result]
  exact ⟨traced₂, spares.after goesOn⟩

theorem Traced.merge (traced : s.Traced l) (vm source : String) :
    ((Session.merge vm source).run s).2.Traced ((l.ensure vm).ensure source) ∧
    Isolates l (some vm) (some vm) s ((Session.merge vm source).run s).2 := by
  obtain ⟨i, s₁, ran, traced₁, stored, goesOn⟩ := traced.ensure vm
  obtain ⟨other, s₂, ran', traced₂, -, goesOn'⟩ := traced₁.ensure source
  have result : ((Session.merge vm source).run s).2 =
      { s₂ with
        world := (s₂.world.copyAttributes i other).2
        interpreters := s₂.interpreters.insert vm (s₂.world.copyAttributes i other).1 } := by
    rw [Session.merge, StateT.run_bind, ran]
    show (StateT.run (Session.interpreter source >>= _) s₁).2 = _
    rw [StateT.run_bind, ran']
    rfl
  have tables : s₂.world.scopes.tables.size ≤
      (s₂.world.copyAttributes i other).2.scopes.tables.size := by
    simp [World.copyAttributes, ScopeStore.setAll]
  obtain ⟨traced₃, isolates⟩ := traced₂.writeRoot
    (j := (s₂.world.copyAttributes i other).1) tables (goesOn'.interpreter stored) rfl
    fun id _ apart => ScopeStore.bindings_modify_of_ne _ apart _
  rw [result]
  exact ⟨traced₃, (isolates.after traced₁ goesOn').after traced goesOn⟩

theorem run_configure_of_ok {vm : String} {config : Config} {i : Interpreter φ} {w : World φ}
    (made : s.world.configuredInterpreter config = (.ok i, w)) :
    ((Session.configure vm config).run s).2 =
      { s with world := w, interpreters := s.interpreters.insert vm i } := by
  simp [Session.configure, onWorld, made]
  rfl

theorem run_configure_of_error {vm : String} {config : Config} {e : ConfigError} {w : World φ}
    (rejected : s.world.configuredInterpreter config = (.error e, w)) :
    ((Session.configure vm config).run s).2 = { s with world := w } := by
  simp [Session.configure, onWorld, rejected]
  rfl

theorem Traced.configure (traced : s.Traced l) (vm : String) (config : Config) :
    ((Session.configure vm config).run s).2.Traced
      (if config.acceptable then l.found vm else l) ∧
    Spares (some vm) s ((Session.configure vm config).run s).2 := by
  obtain ⟨scopes, accepted⟩ := s.world.registerLanguages_result config.languages
  rw [Config.acceptable, ← accepted]
  rcases result : s.world.registerLanguages config.languages with ⟨e | _, w⟩ <;>
    rw [result] at scopes
  · have rejected : s.world.configuredInterpreter config = (.error e, w) := by
      rw [World.configuredInterpreter, result]
    rw [run_configure_of_error rejected]
    obtain ⟨traced', spares⟩ := traced.changeWorld (w := w) (by rw [scopes])
      fun _ _ => by rw [scopes]
    exact ⟨traced', fun _ => spares.interpreter nofun, fun _ => spares.memory nofun⟩
  · have made : s.world.configuredInterpreter config =
        (.ok { w.newInterpreter.1 with config := config }, w.newInterpreter.2) := by
      rw [World.configuredInterpreter, result]
    rw [run_configure_of_ok made]
    refine traced.storeNew vm rfl (congrArg (·.tables.size) scopes) ?_ fun id _ => ?_
    · exact w.size_newInterpreter.trans (by rw [scopes])
    · exact (w.scopes.bindings_new rootName id).trans (by rw [scopes])

theorem Traced.run (traced : s.Traced l) {host : Host φ} (confined : host.Confined) (budget : Nat)
    (source : String) (useCache : Bool) :
    ((Session.run host budget source useCache).run s).2.Traced l ∧
    Spares none s ((Session.run host budget source useCache).run s).2 := by
  have written := confined.execute budget source useCache []
    ⟨s.world.newInterpreter.2, s.world.newInterpreter.1⟩
  have tables := s.world.size_newInterpreter
  have more : s.world.scopes.tables.size ≤ s.world.newInterpreter.2.scopes.tables.size := by omega
  refine traced.changeWorld (more.trans written.tables) fun id valid => ?_
  have below : id < s.world.newInterpreter.2.scopes.tables.size := by omega
  -- The new interpreter stands on a root that was not there before.
  have apart : id ∉ s.world.newInterpreter.1.scopes.chain := by
    show id ∉ [s.world.scopes.tables.size]
    simp only [List.mem_singleton]
    omega
  exact (written.others id below apart).trans (s.world.scopes.bindings_new rootName id)

/-- A step is noticed only in the line of the interpreter it is done to. -/
theorem Step.traced_apply {host : Host φ} (confined : host.Confined) (budget : Nat)
    (traced : s.Traced l) (step : Step φ) :
    (step.apply host budget s).Traced (step.trace l) ∧
    Isolates l step.subject? step.writer? s (step.apply host budget s) := by
  have spared {l' : Lineage} {vm? : Option String} {s' : Session φ}
      (done : s'.Traced l' ∧ Spares vm? s s') :
      s'.Traced l' ∧ Isolates l vm? none s s' :=
    ⟨done.1, done.2.isolates l none⟩
  cases step with
  | registerGlobal name function =>
    exact spared (traced.changeWorld (Nat.le_refl _) fun _ _ => rfl)
  | unregisterGlobal name => exact spared (traced.changeWorld (Nat.le_refl _) fun _ _ => rfl)
  | create vm => exact spared (traced.create vm)
  | share vm source => exact spared (traced.share vm source)
  | fork vm source => exact spared (traced.fork vm source)
  | configure vm config => exact spared (traced.configure vm config)
  | merge vm source => exact traced.merge vm source
  | register vm name function => exact traced.onMachine vm fun _ => .of_eq rfl rfl
  | unregister vm name => exact traced.onMachine vm fun _ => .of_eq rfl rfl
  | assign vm name value => exact traced.onMachine vm fun m => .assign m name value
  | setCancelled vm cancelled => exact traced.onMachine vm fun _ => .of_eq rfl rfl
  | execute vm source useCache bindings =>
    exact traced.onMachine vm fun m => confined.execute budget source useCache bindings m
  | eval vm source =>
    exact traced.onMachine vm fun m =>
      confined.execute budget source m.self.config.cache [] m
  | executeProgram vm p => exact traced.onMachine vm fun m => confined.executeProgram budget p m
  | run source useCache => exact spared (traced.run confined budget source useCache)

/-- The interpreters of a session are at every time those of its lineage. -/
theorem traced_lineage {host : Host φ} (confined : host.Confined) (budget : Nat)
    (steps : List (Step φ)) :
    (steps.foldl (Step.apply host budget) {}).Traced (lineage steps) := by
  suffices run : ∀ (l : Lineage) (s : Session φ), s.Traced l →
      (steps.foldl (Step.apply host budget) s).Traced (steps.foldl Step.trace l) from
    run {} {} ⟨nofun, fun _ => rfl, nofun, nofun, nofun⟩
  induction steps with
  | nil => exact fun _ _ traced => traced
  | cons step steps ih =>
    exact fun l s traced => ih _ _ (step.traced_apply confined budget traced).1

end Session

/-- Whatever was done in a session, interpreters of one line have the same memory, and a further
step that is not done to an interpreter leaves its functions and settings as they are. Its memory
changes only with that of an interpreter of its own line. -/
theorem interpreters_isolated (host : Host φ) (confined : host.Confined) (budget : Nat)
    (steps : List (Session.Step φ)) {s : Session φ}
    (reached : steps.foldl (Session.Step.apply host budget) {} = s) {vm : String}
    {b : Interpreter φ} (present : s.interpreters.get? vm = some b) :
    (∀ {other a}, s.interpreters.get? other = some a →
      (Session.lineage steps).line other = (Session.lineage steps).line vm →
      s.world.memory a = s.world.memory b) ∧
    ∀ step : Session.Step φ, step.subject? ≠ some vm →
      (step.apply host budget s).interpreters.get? vm = some b ∧
      ((step.apply host budget s).world.memory b ≠ s.world.memory b →
        ∃ other line, step.writer? = some other ∧
          (Session.lineage steps).line other = some line ∧
          (Session.lineage steps).line vm = some line) := by
  have traced : s.Traced (Session.lineage steps) :=
    reached ▸ Session.traced_lineage confined budget steps
  refine ⟨fun {other a} found same => ?_, fun step apart => ?_⟩
  · exact congrArg s.world.scopes.bindings ((traced.roots found present).2 same)
  · have isolates := (step.traced_apply confined budget traced).2
    refine ⟨isolates.interpreter apart.symm present, fun changed => ?_⟩
    exact (isolates.memory apart.symm present).resolve_left changed

/-- A host whose functions note their first argument in the memory of their caller. -/
def Host.noting : Host Unit :=
  fun _ args => do
    modify fun m => m.assign "noted" (args.headD .null)
    return .null

/-- A program that calls a function with a truth value. -/
def notingProgram : Program where
  name := Program.anonymous
  source := "f(true)"
  body := [.call ⟨⟨0, 7⟩, ⟨1, 1⟩⟩ ⟨"f", ⟨⟨0, 1⟩, ⟨1, 1⟩⟩⟩
    [.constant ⟨⟨2, 6⟩, ⟨1, 3⟩⟩ (.bool true)]]

/-- Steps that make three interpreters, two of them on one root. -/
def sharing : List (Session.Step Unit) :=
  [.registerGlobal "f" (), .create "a", .share "b" "a", .fork "c" "a"]

/-- What a program notes in the memory of one of the two is in the memory of the other, and the
third does not notice. -/
theorem interpreters_isolated_sharing :
    let s := sharing.foldl (Session.Step.apply Host.noting 1) {}
    let s' := Session.Step.apply Host.noting 1 s (.executeProgram "a" notingProgram)
    Host.noting.Confined ∧
    ∃ b c, s.interpreters.get? "b" = some b ∧ s.interpreters.get? "c" = some c ∧
      s'.interpreters.get? "b" = some b ∧ s'.interpreters.get? "c" = some c ∧
      (s'.world.memory b).get? "noted" = some (.bool true) ∧
      s'.world.memory c = s.world.memory c := by
  intro s s'
  have confined : Host.noting.Confined := fun _ _ m => .assign m _ _
  obtain ⟨b, isB⟩ : ∃ b, s.interpreters.get? "b" = some b := ⟨_, rfl⟩
  obtain ⟨c, isC⟩ : ∃ c, s.interpreters.get? "c" = some c := ⟨_, rfl⟩
  obtain ⟨-, keepsB⟩ := interpreters_isolated Host.noting confined 1 sharing rfl isB
  obtain ⟨-, keepsC⟩ := interpreters_isolated Host.noting confined 1 sharing rfl isC
  obtain ⟨sameB, -⟩ := keepsB (.executeProgram "a" notingProgram) (by decide)
  obtain ⟨sameC, apart⟩ := keepsC (.executeProgram "a" notingProgram) (by decide)
  refine ⟨confined, b, c, isB, isC, sameB, sameC, ?_, ?_⟩
  · cases isB
    rfl
  · by_contra changed
    obtain ⟨_, line, ⟨⟩, ofA, ofC⟩ := apart changed
    have lines : (Session.lineage sharing).line "a" ≠ (Session.lineage sharing).line "c" := by
      decide
    exact lines (ofA.trans ofC.symm)

end Polyglot
