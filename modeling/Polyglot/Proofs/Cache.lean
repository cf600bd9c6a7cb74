import Polyglot.Proofs.Eval.Simulation

/-!
# The compile cache

What a source text means depends on the languages in force, and these are no part of the key of
the cache. It can be used all the same because registering a language empties it: whatever was
compiled, registered and cleared before, a cached program is what reading its source text now
would give. So nothing but the log tells whether a script came from the cache.
-/

namespace Polyglot

variable {φ : Type}

namespace World

/-- Every cached program is what reading its source text now would give. -/
def Coherent (w : World φ) : Prop :=
  ∀ source compiled, w.cache.get? source = some compiled →
    Program.parse w.languages source = .ok compiled.program

theorem coherent_of_empty {w : World φ} (empty : w.cache = {}) : w.Coherent := by
  intro source compiled found
  rw [empty] at found
  cases found

/-! ## Compiling -/

theorem emitDirective_eq (w : World φ) (r : Reading) :
    ∃ log, w.emitDirective r = { w with log := log } := by
  unfold emitDirective
  split
  · exact ⟨_, rfl⟩
  · exact ⟨w.log, rfl⟩

theorem compileNew_of_rejected {w : World φ} {source : String} {e : CompileError}
    (rejected : Program.parse w.languages source = .error e) :
    ∃ log, w.compileNew source = (.error e, { w with log := log }) := by
  obtain ⟨log, emitted⟩ := w.emitDirective_eq (Reading.ofSource w.languages source)
  unfold Program.parse at rejected
  unfold compileNew parse
  simp only [emitted, rejected]
  exact ⟨log, rfl⟩

theorem compileNew_of_accepted {w : World φ} {source : String} {p : Program}
    (accepted : Program.parse w.languages source = .ok p) :
    ∃ serial count log, w.compileNew source =
      (.ok ⟨serial, p⟩, { w with compilations := count, log := log }) := by
  obtain ⟨log, emitted⟩ := w.emitDirective_eq (Reading.ofSource w.languages source)
  unfold Program.parse at accepted
  unfold compileNew parse
  simp only [emitted, accepted]
  exact ⟨_, _, _, rfl⟩

/-- A script that cannot be read is rejected, and only the log changes. -/
theorem compile_of_rejected {w : World φ} (coherent : w.Coherent) {source : String}
    (useCache : Bool) {e : CompileError}
    (rejected : Program.parse w.languages source = .error e) :
    ∃ log, w.compile source useCache = (.error e, { w with log := log }) := by
  obtain ⟨log, result⟩ := compileNew_of_rejected rejected
  refine ⟨log, ?_⟩
  unfold compile
  cases useCache with
  | false => exact result
  | true =>
    cases found : w.cache.get? source with
    | some compiled =>
      have accepted := coherent source compiled found
      rw [rejected] at accepted
      cases accepted
    | none =>
      rw [result]
      rfl

/-- A script that can be read is accepted as it is read now, and at most added to the cache. -/
theorem compile_of_accepted {w : World φ} (coherent : w.Coherent) {source : String}
    (useCache : Bool) {p : Program} (accepted : Program.parse w.languages source = .ok p) :
    ∃ serial cache count log, (cache = w.cache ∨ cache = w.cache.insert source ⟨serial, p⟩) ∧
      w.compile source useCache =
        (.ok ⟨serial, p⟩, { w with cache := cache, compilations := count, log := log }) := by
  obtain ⟨serial, count, log, result⟩ := compileNew_of_accepted accepted
  unfold compile
  cases useCache with
  | false => exact ⟨serial, w.cache, count, log, .inl rfl, result⟩
  | true =>
    cases found : w.cache.get? source with
    | some compiled =>
      have cached := coherent source compiled found
      rw [accepted] at cached
      cases cached
      exact ⟨compiled.serial, w.cache, _, _, .inl rfl, rfl⟩
    | none =>
      rw [result]
      exact ⟨serial, _, count, _, .inr rfl, rfl⟩

theorem program_compile {w : World φ} (coherent : w.Coherent) (source : String)
    (useCache : Bool) :
    (w.compile source useCache).1.map Compiled.program = Program.parse w.languages source := by
  cases parsed : Program.parse w.languages source with
  | error e =>
    obtain ⟨log, result⟩ := compile_of_rejected coherent useCache parsed
    rw [result]
    rfl
  | ok p =>
    obtain ⟨serial, cache, count, log, -, result⟩ := compile_of_accepted coherent useCache parsed
    rw [result]
    rfl

theorem coherent_compile {w : World φ} (coherent : w.Coherent) (source : String)
    (useCache : Bool) : (w.compile source useCache).2.Coherent := by
  cases parsed : Program.parse w.languages source with
  | error e =>
    obtain ⟨log, result⟩ := compile_of_rejected coherent useCache parsed
    rw [result]
    exact coherent
  | ok p =>
    obtain ⟨serial, cache, count, log, stored, result⟩ :=
      compile_of_accepted coherent useCache parsed
    rw [result]
    rcases stored with rfl | rfl
    · exact coherent
    · intro other found lookup
      by_cases same : other = source
      · subst same
        have stored : some ⟨serial, p⟩ = some found :=
          (OrderedMap.get?_insert_self w.cache other ⟨serial, p⟩).symm.trans lookup
        cases stored
        exact parsed
      · rw [OrderedMap.get?_insert_of_ne w.cache same] at lookup
        exact coherent other found lookup

theorem coherent_registerLanguage {w : World φ} (coherent : w.Coherent) (tag : String)
    (entries : List (String × String)) : (w.registerLanguage tag entries).2.Coherent := by
  unfold registerLanguage
  split
  · exact coherent
  · exact coherent_of_empty rfl

end World

/-! ## Runs -/

/-- What is done with the cache of a process. -/
inductive CacheStep
  | compile (source : String) (useCache : Bool)
  | registerLanguage (tag : String) (entries : List (String × String))
  | clear

/-- The world after a step, which may have failed. -/
def CacheStep.run (w : World φ) : CacheStep → World φ
  | compile source useCache => (w.compile source useCache).2
  | registerLanguage tag entries => (w.registerLanguage tag entries).2
  | clear => { w with cache := {} }

theorem CacheStep.coherent_run {w : World φ} (coherent : w.Coherent) (step : CacheStep) :
    (step.run w).Coherent := by
  cases step with
  | compile source useCache => exact World.coherent_compile coherent source useCache
  | registerLanguage tag entries => exact World.coherent_registerLanguage coherent tag entries
  | clear => exact World.coherent_of_empty rfl

theorem CacheStep.coherent_runAll (steps : List CacheStep) {w : World φ} (coherent : w.Coherent) :
    (steps.foldl CacheStep.run w).Coherent := by
  induction steps generalizing w with
  | nil => exact coherent
  | cons step steps ih => exact ih (step.coherent_run coherent)

/-! ## Running scripts -/

/-- Machines that differ at most in what is cached and logged. -/
structure Machine.SameButCache (m m' : Machine φ) : Prop where
  self : m.self = m'.self
  heap : m.world.heap = m'.world.heap
  scopes : m.world.scopes = m'.world.scopes
  globals : m.world.globals = m'.world.globals
  languages : m.world.languages = m'.world.languages
  coherent : m.world.Coherent
  coherent' : m'.world.Coherent

/-- Functions of the host that do not look into the cache or the log: they may compile, but what
they give does not depend on what is cached already. -/
def Host.IgnoresCache (host : Host φ) : Prop :=
  ∀ function args {m m' : Machine φ}, m.SameButCache m' →
    (outcome (host function args) m).1 = (outcome (host function args) m').1 ∧
      (outcome (host function args) m).2.SameButCache (outcome (host function args) m').2

theorem Host.IgnoresCache.simulation {host : Host φ} (ignores : host.IgnoresCache) :
    Simulation host Machine.SameButCache where
  self same := same.self
  heap same := same.heap
  scopes same _ _ := by rw [same.scopes]
  setSelf _ same := { same with self := rfl }
  setHeap _ same := { same with heap := rfl }
  assign name value same := { same with
    scopes := by rw [Machine.assign, Machine.assign, same.self, same.scopes] }
  pushScope name same := { same with
    self := by simp only [Machine.pushScope, Machine.emit, same.self, same.scopes]
    scopes := by
      simp only [Machine.pushScope, Machine.emit, World.emit, same.self, same.scopes] }
  emit _ _ same := { same with }
  call := ignores

/-- Compiling on such machines rejects the script on both with the same error, or accepts it with
the same program, whether or not either uses the cache. -/
theorem Machine.SameButCache.compileIn {m m' : Machine φ} (same : m.SameButCache m')
    (source : String) (useCache useCache' : Bool) :
    (∃ e k k', compileIn source useCache m = (.error e, k) ∧
      compileIn source useCache' m' = (.error e, k') ∧ k.SameButCache k') ∨
    ∃ compiled compiled' k k', compileIn source useCache m = (.ok compiled, k) ∧
      compileIn source useCache' m' = (.ok compiled', k') ∧ k.SameButCache k' ∧
      compiled.program = compiled'.program := by
  have kept := World.coherent_compile same.coherent source useCache
  have kept' := World.coherent_compile same.coherent' source useCache'
  unfold Polyglot.compileIn
  cases parsed : Program.parse m.world.languages source with
  | error e =>
    have parsed' : Program.parse m'.world.languages source = .error e := by
      rw [← same.languages, parsed]
    obtain ⟨log, result⟩ := World.compile_of_rejected same.coherent useCache parsed
    obtain ⟨log', result'⟩ := World.compile_of_rejected same.coherent' useCache' parsed'
    rw [result] at kept ⊢
    rw [result'] at kept' ⊢
    exact .inl ⟨e, _, _, rfl, rfl, { same with coherent := kept, coherent' := kept' }⟩
  | ok p =>
    have parsed' : Program.parse m'.world.languages source = .ok p := by
      rw [← same.languages, parsed]
    obtain ⟨serial, cache, count, log, -, result⟩ :=
      World.compile_of_accepted same.coherent useCache parsed
    obtain ⟨serial', cache', count', log', -, result'⟩ :=
      World.compile_of_accepted same.coherent' useCache' parsed'
    rw [result] at kept ⊢
    rw [result'] at kept' ⊢
    exact .inr ⟨⟨serial, p⟩, ⟨serial', p⟩, _, _, rfl, rfl,
      { same with coherent := kept, coherent' := kept' }, rfl⟩

/-- Running a source text ends in the same way whether or not it may come from the cache. -/
theorem Host.IgnoresCache.execute {host : Host φ} (ignores : host.IgnoresCache) (budget : Nat)
    {m m' : Machine φ} (same : m.SameButCache m') (source : String) (useCache useCache' : Bool)
    (bindings : List (String × Value)) :
    (outcome (execute host budget source useCache bindings) m).1 =
        (outcome (execute host budget source useCache' bindings) m').1 ∧
      (outcome (Polyglot.execute host budget source useCache bindings) m).2.SameButCache
        (outcome (Polyglot.execute host budget source useCache' bindings) m').2 := by
  rw [outcome_execute, outcome_execute]
  obtain ⟨e, k, k', result, result', same⟩ |
    ⟨compiled, compiled', k, k', result, result', same, sameProgram⟩ :=
    same.compileIn source useCache useCache'
  · rw [result, result']
    exact ⟨rfl, same⟩
  · have bound := ignores.simulation.assignAll bindings same
    obtain ⟨alike, l, l', sameEnd, ended, ended'⟩ := ignores.simulation.executeProgram id budget
      compiled.program compiled.program rfl (Node.mapLocAll_id _) bound
    have sameResult := alike.eq fun _ _ moved => moved.eq
    rw [result, result']
    dsimp only
    rw [← sameProgram, ended, ended', sameResult]
    exact ⟨rfl, ignores.simulation.report _ sameEnd⟩

/-- A rejected script changes nothing but the log: nothing is cached, and the bindings given by the
host are not assigned. -/
theorem World.Coherent.rejected {w : World φ} (coherent : w.Coherent) {source : String}
    {useCache : Bool} {e : CompileError} (rejected : (w.compile source useCache).1 = .error e) :
    ∃ log, w.compile source useCache = (.error e, { w with log := log }) ∧
      ∀ (host : Host φ) budget bindings (i : Interpreter φ),
        outcome (execute host budget source useCache bindings) ⟨w, i⟩ =
          (.error (.compile e), ⟨{ w with log := log }, i⟩) := by
  cases parsed : Program.parse w.languages source with
  | ok p =>
    obtain ⟨serial, cache, count, log, -, result⟩ :=
      World.compile_of_accepted coherent useCache parsed
    rw [result] at rejected
    cases rejected
  | error e' =>
    obtain ⟨log, result⟩ := World.compile_of_rejected coherent useCache parsed
    rw [result] at rejected
    cases rejected
    refine ⟨log, result, fun host budget bindings i => ?_⟩
    rw [outcome_execute, compileIn, result]

/-- From an empty cache on, whatever is compiled, registered and cleared, every cached program is
what reading its source text under the present languages gives. Compiling gives the same program
or the same error with the cache as without it; running a source text gives the same value or the
same failure and leaves the same memory; and a script that is rejected changes neither the cache
nor the interpreter. -/
theorem cache_transparent (steps : List CacheStep) {w₀ w : World φ} (empty : w₀.cache = {})
    (reached : steps.foldl CacheStep.run w₀ = w) :
    w.Coherent ∧
    (∀ source, (w.compile source true).1.map Compiled.program =
        (w.compile source false).1.map Compiled.program ∧
      (w.compile source false).1.map Compiled.program = Program.parse w.languages source) ∧
    (∀ (host : Host φ) budget source bindings i, host.IgnoresCache →
      (outcome (execute host budget source true bindings) ⟨w, i⟩).1 =
        (outcome (execute host budget source false bindings) ⟨w, i⟩).1 ∧
      (outcome (execute host budget source true bindings) ⟨w, i⟩).2.SameButCache
        (outcome (execute host budget source false bindings) ⟨w, i⟩).2) ∧
    ∀ source useCache e, (w.compile source useCache).1 = .error e →
      ∃ log, (w.compile source useCache).2 = { w with log := log } ∧
        ∀ (host : Host φ) budget bindings i,
          outcome (execute host budget source useCache bindings) ⟨w, i⟩ =
            (.error (.compile e), ⟨{ w with log := log }, i⟩) := by
  have coherent : w.Coherent := by
    rw [← reached]
    exact CacheStep.coherent_runAll steps (World.coherent_of_empty empty)
  refine ⟨coherent, fun source => ?_, fun host budget source bindings i ignores => ?_,
    fun source useCache e rejected => ?_⟩
  · have cached := World.program_compile coherent source true
    have anew := World.program_compile coherent source false
    exact ⟨cached.trans anew.symm, anew⟩
  · exact ignores.execute budget ⟨rfl, rfl, rfl, rfl, rfl, coherent, coherent⟩ source true false
      bindings
  · obtain ⟨log, result, unchanged⟩ := coherent.rejected rejected
    exact ⟨log, congrArg Prod.snd result, unchanged⟩

/-- A world in which a name was compiled that a new English dictionary makes a keyword. -/
def relearned : World Unit :=
  [CacheStep.compile "si = 1" true, .registerLanguage "en" [("si", "if")]].foldl CacheStep.run {}

/-- The script was accepted and cached before, and is now rejected with the cache as without. -/
theorem cache_transparent_relearned :
    ((CacheStep.compile "si = 1" true).run ({} : World Unit)).cache.contains "si = 1" = true ∧
    (relearned.compile "si = 1" false).1.isOk = false ∧
    (relearned.compile "si = 1" true).1.map Compiled.program =
      (relearned.compile "si = 1" false).1.map Compiled.program ∧
    Host.echo.IgnoresCache ∧
    ∀ i, (outcome (execute Host.echo 1 "x = 1" true) ⟨relearned, i⟩).1 =
      (outcome (execute Host.echo 1 "x = 1" false) ⟨relearned, i⟩).1 := by
  have ignores : Host.echo.IgnoresCache := fun _ _ _ _ same => ⟨rfl, same⟩
  have transparent := cache_transparent
    [.compile "si = 1" true, .registerLanguage "en" [("si", "if")]] rfl (Eq.refl relearned)
  exact ⟨by decide +kernel, by decide +kernel, (transparent.2.1 "si = 1").1, ignores,
    fun i => (transparent.2.2.1 Host.echo 1 "x = 1" [] i ignores).1⟩

end Polyglot
