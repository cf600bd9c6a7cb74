import Polyglot.Proofs.Eval.Congruence

/-!
# Runs that go alike

Machines may differ in what evaluation does not look at, and trees in where they were read. From
related machines a tree and the same tree with other locations end alike, with the same value or
with the same fault, and leave related machines.
-/

namespace Polyglot

variable {φ α β : Type}

/-! ## Ends -/

/-- The same failure, whose location may have been changed by `f`. -/
structure RuntimeError.Moved (f : Location → Location) (e e' : RuntimeError) : Prop where
  fault : e.fault = e'.fault
  loc : e'.loc = e.loc ∨ e'.loc = e.loc.map f

/-- The same reason to stop, up to the location of a failure. -/
inductive Stop.Moved (f : Location → Location) : Stop → Stop → Prop
  | failed {e e' : RuntimeError} (moved : e.Moved f e') : Moved f (.failed e) (.failed e')
  | unfinished : Moved f .unfinished .unfinished

/-- The same exit, up to the location of a failure. -/
inductive Exit.Moved (f : Location → Location) : Exit → Exit → Prop
  | breakLoop : Moved f .breakLoop .breakLoop
  | continueLoop : Moved f .continueLoop .continueLoop
  | returned (v : Value) : Moved f (.returned v) (.returned v)
  | stopped {stop stop' : Stop} (moved : stop.Moved f stop') :
    Moved f (.stopped stop) (.stopped stop')

/-- The same value, or exits that are related. -/
inductive EndsAlike {ε : Type} (M : ε → ε → Prop) : Except ε α → Except ε α → Prop
  | value (a : α) : EndsAlike M (.ok a) (.ok a)
  | exit {e e' : ε} (moved : M e e') : EndsAlike M (.error e) (.error e')

variable {f : Location → Location}

theorem RuntimeError.Moved.refl (e : RuntimeError) : e.Moved f e :=
  ⟨rfl, .inl rfl⟩

theorem RuntimeError.Moved.located {e e' : RuntimeError} (moved : e.Moved f e') (loc : Location) :
    (e.located loc).Moved f (e'.located (f loc)) := by
  refine ⟨moved.fault, ?_⟩
  rcases e with ⟨_, _ | l⟩ <;> rcases moved.loc with same | same <;>
    simp only [RuntimeError.located, same]
  · exact .inr rfl
  · exact .inr rfl
  · exact .inl rfl
  · exact .inr rfl

theorem Stop.Moved.refl : ∀ stop : Stop, stop.Moved f stop
  | .failed e => .failed (.refl e)
  | .unfinished => .unfinished

theorem Exit.Moved.refl : ∀ exit : Exit, exit.Moved f exit
  | .breakLoop => .breakLoop
  | .continueLoop => .continueLoop
  | .returned v => .returned v
  | .stopped stop => .stopped (.refl stop)

theorem Exit.Moved.located {exit exit' : Exit} (moved : exit.Moved f exit') (loc : Location) :
    (exit.located loc).Moved f (exit'.located (f loc)) := by
  cases moved with
  | breakLoop => exact .breakLoop
  | continueLoop => exact .continueLoop
  | returned v => exact .returned v
  | stopped moved =>
    cases moved with
    | failed moved => exact .stopped (.failed (moved.located loc))
    | unfinished => exact .stopped .unfinished

/-- Where no location is changed, failures that are moved are the same. -/
theorem Stop.Moved.eq {stop stop' : Stop} (moved : stop.Moved id stop') : stop = stop' := by
  cases moved with
  | unfinished => rfl
  | @failed e e' moved =>
    obtain ⟨fault, loc⟩ := e
    obtain ⟨fault', loc'⟩ := e'
    obtain ⟨rfl, same⟩ := moved
    have sameLoc : loc = loc' := by
      rcases same with same | same
      · exact same.symm
      · simpa using same.symm
    rw [sameLoc]

namespace EndsAlike

variable {ε : Type} {M : ε → ε → Prop}

theorem refl (reflexive : ∀ e, M e e) : ∀ r : Except ε α, EndsAlike M r r
  | .ok a => .value a
  | .error e => .exit (reflexive e)

theorem eq {r r' : Except ε α} (alike : EndsAlike M r r') (moves : ∀ e e', M e e' → e = e') :
    r = r' := by
  cases alike with
  | value a => rfl
  | exit moved => rw [moves _ _ moved]

theorem mapError {δ : Type} {N : δ → δ → Prop} {g g' : ε → δ} {r r' : Except ε α}
    (alike : EndsAlike M r r') (moves : ∀ e e', M e e' → N (g e) (g' e')) :
    EndsAlike N (r.mapError g) (r'.mapError g') := by
  cases alike with
  | value a => exact .value a
  | exit moved => exact .exit (moves _ _ moved)

end EndsAlike

/-! ## Steps -/

/-- From related machines two actions end alike and leave related machines. -/
def Simulates (f : Location → Location) (S : Machine φ → Machine φ → Prop) (act act' : Eval φ α) :
    Prop :=
  ∀ m m', S m m' → EndsAlike (Exit.Moved f) (outcome act m).1 (outcome act' m').1 ∧
    S (outcome act m).2 (outcome act' m').2

/-- A relation between machines that evaluation cannot tell apart: they have what it looks at in
common, and stay related whatever it does to both. -/
structure Simulation (host : Host φ) (S : Machine φ → Machine φ → Prop) : Prop where
  self : ∀ {m m'}, S m m' → m.self = m'.self
  heap : ∀ {m m'}, S m m' → m.world.heap = m'.world.heap
  scopes : ∀ {m m'}, S m m' →
    ∀ id name, m.world.scopes.get? id name = m'.world.scopes.get? id name
  setSelf : ∀ {m m'} self, S m m' → S { m with self := self } { m' with self := self }
  setHeap : ∀ {m m'} heap, S m m' →
    S { m with world := { m.world with heap := heap } }
      { m' with world := { m'.world with heap := heap } }
  assign : ∀ {m m'} name value, S m m' → S (m.assign name value) (m'.assign name value)
  pushScope : ∀ {m m'} name, S m m' → S (m.pushScope name) (m'.pushScope name)
  emit : ∀ {m m'} level event, S m m' → S (m.emit level event) (m'.emit level event)
  call : ∀ function args {m m'}, S m m' →
    (outcome (host function args) m).1 = (outcome (host function args) m').1 ∧
      S (outcome (host function args) m).2 (outcome (host function args) m').2

namespace Simulation

variable {host : Host φ} {S : Machine φ → Machine φ → Prop} (h : Simulation host S)
  {m m' : Machine φ}

include h

theorem report (event : Event) (related : S m m') : S (m.report event) (m'.report event) := by
  unfold Machine.report
  rw [h.self related]
  exact h.emit _ event related

theorem assignAll (entries : List (String × Value)) (related : S m m') :
    S (m.assignAll entries) (m'.assignAll entries) := by
  induction entries generalizing m m' with
  | nil => exact related
  | cons e entries ih => exact ih (h.assign e.1 e.2 related)

theorem truncate (depth : Nat) (related : S m m') : S (m.truncate depth) (m'.truncate depth) := by
  unfold Machine.truncate
  rw [h.self related]
  exact h.emit _ _ (h.setSelf _ related)

theorem indexSet (owner key value : Value) :
    Simulates f S (Eval.indexSet owner key value : Eval φ Unit)
      (Eval.indexSet owner key value) := by
  intro m m' related
  rw [Eval.outcome_indexSet, Eval.outcome_indexSet, h.heap related]
  cases m'.world.heap.indexSet owner key value with
  | error fault => exact ⟨.exit (.refl _), related⟩
  | ok heap => exact ⟨.value (), h.setHeap heap related⟩

omit h in
theorem bind {act act' : Eval φ α} {next next' : α → Eval φ β} (first : Simulates f S act act')
    (rest : ∀ a, Simulates f S (next a) (next' a)) :
    Simulates f S (act >>= next) (act' >>= next') := by
  intro m m' related
  have step := first m m' related
  rw [outcome_bind, outcome_bind]
  generalize outcome act m = ended, outcome act' m' = ended' at step
  obtain ⟨result, k⟩ := ended
  obtain ⟨result', k'⟩ := ended'
  obtain ⟨alike, related'⟩ := step
  cases alike with
  | value a => exact rest a k k' related'
  | exit moved => exact ⟨.exit moved, related'⟩

/-- Related machines stay related at every step, and every step ends alike on them. -/
theorem congruence (f : Location → Location) :
    Congruence host host f (fun _ {_} act act' => Simulates f S act act') where
  pure _ _ a _ _ related := ⟨.value a, related⟩
  bind := bind
  observe _ _ g visible m m' related := by
    have same := visible m m' (h.self related) (h.heap related) (h.scopes related)
    rw [Eval.outcome_observe, Eval.outcome_observe, same]
    exact ⟨.value _, related⟩
  fail _ _ _ _ _ _ related := ⟨.exit (.refl _), related⟩
  badTarget _ _ related := ⟨.exit (.refl _), related⟩
  unfinished _ _ _ _ related := ⟨.exit (.refl _), related⟩
  returned _ _ _ _ _ related := ⟨.exit (.refl _), related⟩
  breakLoop _ _ _ related := ⟨.exit (.refl _), related⟩
  continueLoop _ _ _ related := ⟨.exit (.refl _), related⟩
  locate loc inner m m' related := by
    obtain ⟨alike, related'⟩ := inner m m' related
    rw [Eval.outcome_locate, Eval.outcome_locate]
    exact ⟨alike.mapError fun _ _ moved => moved.located loc, related'⟩
  pass inner m m' related := by
    obtain ⟨alike, related'⟩ := inner m m' related
    rw [Eval.outcome_pass, Eval.outcome_pass]
    refine ⟨?_, related'⟩
    generalize (outcome _ m).1 = result, (outcome _ m').1 = result' at alike
    cases alike with
    | value v => exact .value _
    | exit moved =>
      cases moved with
      | breakLoop => exact .value _
      | continueLoop => exact .value _
      | returned v => exact .exit (.returned v)
      | stopped moved => exact .exit (.stopped moved)
  withScope name inner m m' related := by
    obtain ⟨alike, related'⟩ := inner _ _ (h.pushScope name related)
    rw [Eval.outcome_withScope, Eval.outcome_withScope, h.self related]
    exact ⟨alike, h.truncate _ related'⟩
  assign _ name v _ _ related := ⟨.value (), h.assign name v related⟩
  newList _ items m m' related := by
    have same := h.heap related
    refine ⟨?_, ?_⟩
    · show EndsAlike _ (.ok (m.world.heap.newList items).1) (.ok (m'.world.heap.newList items).1)
      rw [same]
      exact .value _
    · show S { m with world := { m.world with heap := (m.world.heap.newList items).2 } } _
      rw [same]
      exact h.setHeap _ related
  newMap _ entries m m' related := by
    have same := h.heap related
    refine ⟨?_, ?_⟩
    · show EndsAlike _ (.ok (m.world.heap.newMap entries).1) (.ok (m'.world.heap.newMap entries).1)
      rw [same]
      exact .value _
    · show S { m with world := { m.world with heap := (m.world.heap.newMap entries).2 } } _
      rw [same]
      exact h.setHeap _ related
  indexSet _ := h.indexSet
  unknownCall _ name m m' related := by
    refine ⟨.value _, ?_⟩
    show S (m.report _) (m'.report _)
    rw [h.self related]
    exact h.report _ related
  call _ function args m m' related := by
    obtain ⟨same, related'⟩ := h.call function args related
    rw [Eval.outcome_ofAction, Eval.outcome_ofAction, same]
    exact ⟨.refl .refl _, related'⟩

/-- A tree ends like the same tree with other locations. -/
theorem eval (f : Location → Location) (budget : Nat) (n : Node) :
    Simulates f S (n.eval host budget) ((n.mapLoc f).eval host budget) :=
  (h.congruence f).eval budget n (Node.sound_anywhere n)

/-! ## Programs -/

theorem evalStatements (f : Location → Location) (budget : Nat) (ns : List Node) :
    ∀ last m m', S m m' →
      EndsAlike (Stop.Moved f) (outcome (Program.evalStatements host budget last ns) m).1
        (outcome (Program.evalStatements host budget last (Node.mapLocAll f ns)) m').1 ∧
      S (outcome (Program.evalStatements host budget last ns) m).2
        (outcome (Program.evalStatements host budget last (Node.mapLocAll f ns)) m').2 := by
  induction ns with
  | nil => exact fun last _ _ related => ⟨.value last, related⟩
  | cons n ns ih =>
    intro last m m' related
    have step := h.eval f budget n m m' related
    rw [Node.mapLocAll, outcome_evalStatements_cons, outcome_evalStatements_cons, Node.loc_mapLoc]
    generalize outcome (n.eval host budget) m = ended,
      outcome ((n.mapLoc f).eval host budget) m' = ended' at step
    obtain ⟨result, k⟩ := ended
    obtain ⟨result', k'⟩ := ended'
    obtain ⟨alike, related'⟩ := step
    cases alike with
    | value v => exact ih v k k' related'
    | exit moved =>
      cases moved with
      | returned v => exact ⟨.value v, related'⟩
      | stopped moved => exact ⟨.exit moved, related'⟩
      | breakLoop | continueLoop => exact ⟨.exit (.failed ⟨rfl, .inr rfl⟩), related'⟩

/-- A program ends like the same program with other locations, and leaves machines that were
related before the end of the run was logged. -/
theorem executeProgram (f : Location → Location) (budget : Nat) (p p' : Program)
    (name : p.name = p'.name) (body : Node.mapLocAll f p.body = p'.body) (related : S m m') :
    EndsAlike (Stop.Moved f) (outcome (Polyglot.executeProgram host budget p) m).1
      (outcome (Polyglot.executeProgram host budget p') m').1 ∧
    ∃ k k', S k k' ∧
      (outcome (Polyglot.executeProgram host budget p) m).2 =
        k.report (endOfRun (outcome (Polyglot.executeProgram host budget p) m).1) ∧
      (outcome (Polyglot.executeProgram host budget p') m').2 =
        k'.report (endOfRun (outcome (Polyglot.executeProgram host budget p') m').1) := by
  have length : p.body.length = p'.body.length := by
    rw [← body, Node.mapLocAll_eq_map, List.length_map]
  have started := h.report (.started p.name p.body.length) related
  obtain ⟨alike, related'⟩ := h.evalStatements f budget p.body .null _ _ started
  rw [outcome_executeProgram, outcome_executeProgram, ← name, ← length, ← body]
  refine ⟨alike, _, _, h.truncate m.self.scopes.depth related', rfl, ?_⟩
  rw [h.self related]

end Simulation

end Polyglot
