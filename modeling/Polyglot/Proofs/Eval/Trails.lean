import Polyglot.Proofs.Forking
import Polyglot.Proofs.Value.Growth

/-!
# The moments of a run

A run passes through machines one after the other: a trail lists them, from the machine the run
starts on to the one it leaves, with the machine after every step that changes anything. Along
every trail containers only grow. A run that starts on a machine without dangling values stays on
such machines; that is shown by rules for the steps of evaluation, which say besides what the
value is that a step ends with.
-/

namespace Polyglot

variable {φ ε δ α β : Type}

/-! ## Machines without dangling values -/

/-- The containers are closed, and every value that is bound is there. -/
structure Machine.Intact (m : Machine φ) : Prop where
  heap : m.world.heap.Closed
  bindings : ∀ id, ∀ e ∈ (m.world.scopes.bindings id).entries, m.world.heap.Known e.2

namespace Machine.Intact

variable {m : Machine φ}

theorem pushScope (intact : m.Intact) (name : String) : (m.pushScope name).Intact where
  heap := intact.heap
  bindings id e member := by
    refine intact.bindings id e ?_
    rw [← m.world.scopes.bindings_new name id]
    exact member

theorem assign (intact : m.Intact) (name : String) {v : Value} (known : m.world.heap.Known v) :
    (m.assign name v).Intact where
  heap := intact.heap
  bindings id e member := by
    show m.world.heap.Known e.2
    change e ∈ ((m.self.scopes.assign m.world.scopes name v).bindings id).entries at member
    rw [ScopeStack.assign_eq] at member
    have change := m.world.scopes.bindings_modify (m.self.scopes.owner m.world.scopes name) id
      fun bindings => bindings.insert name v
    rcases change with same | changed
    · exact intact.bindings id e (same ▸ member)
    · rcases OrderedMap.mem_insert (changed ▸ member) with new | old
      · exact new ▸ known
      · exact intact.bindings id e old

/-- A machine whose containers have grown, its bindings being the same. -/
theorem withHeap (intact : m.Intact) {h : Heap} (grows : m.world.heap.Grows h) (closed : h.Closed) :
    ({ m with world := { m.world with heap := h } } : Machine φ).Intact where
  heap := closed
  bindings id e member := grows.known (intact.bindings id e member)

theorem get? (intact : m.Intact) {name : String} {v : Value} (found : m.get? name = some v) :
    m.world.heap.Known v := by
  obtain ⟨id, _, bound⟩ := List.exists_of_findSome?_eq_some found
  exact intact.bindings id _ (OrderedMap.mem_of_find? bound)

end Machine.Intact

/-- Functions of the host that change no container that is there. They may make new ones, and they
bind and give back only values that are there. -/
structure Host.KeepsContainers (host : Host φ) : Prop where
  lists : ∀ function args (m : Machine φ),
    m.world.heap.lists.size ≤ (outcome (host function args) m).2.world.heap.lists.size
  maps : ∀ function args (m : Machine φ),
    m.world.heap.maps.size ≤ (outcome (host function args) m).2.world.heap.maps.size
  items : ∀ function args (m : Machine φ), ∀ id < m.world.heap.lists.size,
    (outcome (host function args) m).2.world.heap.items id = m.world.heap.items id
  entries : ∀ function args (m : Machine φ), ∀ id < m.world.heap.maps.size,
    (outcome (host function args) m).2.world.heap.entries id = m.world.heap.entries id
  intact : ∀ function args (m : Machine φ), m.Intact → (∀ v ∈ args, m.world.heap.Known v) →
    (outcome (host function args) m).2.Intact ∧
      ∀ v, (outcome (host function args) m).1 = .ok v →
        (outcome (host function args) m).2.world.heap.Known v

theorem Host.KeepsContainers.grows {host : Host φ} (keeps : host.KeepsContainers) (function : φ)
    (args : List Value) (m : Machine φ) :
    m.world.heap.Grows (outcome (host function args) m).2.world.heap where
  lists := keeps.lists function args m
  maps := keeps.maps function args m
  lengths id there := by rw [keeps.items function args m id there]
  keys id there := by simp [keeps.entries function args m id there]

/-! ## Trails -/

/-- The machines that an action passes through. Each constructor is a step of evaluation or puts
steps together; what touches no container is one step. -/
inductive Trail (host : Host φ) :
    {ε α : Type} → ExceptT ε (StateM (Machine φ)) α → Machine φ → List (Machine φ) → Prop
  | pure {ε α : Type} (a : α) (m : Machine φ) :
    Trail host (pure a : ExceptT ε (StateM (Machine φ)) α) m [m]
  | throw {ε α : Type} (e : ε) (m : Machine φ) :
    Trail host (throw e : ExceptT ε (StateM (Machine φ)) α) m [m]
  | get {ε : Type} (m : Machine φ) :
    Trail host (get : ExceptT ε (StateM (Machine φ)) (Machine φ)) m [m]
  | quiet {ε : Type} {f : Machine φ → Machine φ} (m : Machine φ)
    (same : (f m).world.heap = m.world.heap) :
    Trail host (modify f : ExceptT ε (StateM (Machine φ)) PUnit) m [m, f m]
  | newList (items : Array Value) (m : Machine φ) :
    Trail host (Eval.newList items) m [m, (outcome (Eval.newList items) m).2]
  | newMap (entries : OrderedMap Value) (m : Machine φ) :
    Trail host (Eval.newMap entries) m [m, (outcome (Eval.newMap entries) m).2]
  | indexSet (owner key value : Value) (m : Machine φ) :
    Trail host (Eval.indexSet owner key value) m
      [m, (outcome (Eval.indexSet owner key value) m).2]
  | call (function : φ) (args : List Value) (m : Machine φ) :
    Trail host (Eval.ofAction (host function args)) m [m, (outcome (host function args) m).2]
  | failed {ε α β : Type} {act : ExceptT ε (StateM (Machine φ)) α}
    {next : α → ExceptT ε (StateM (Machine φ)) β} {e : ε} {m m' : Machine φ}
    {l : List (Machine φ)} (ended : outcome act m = (.error e, m')) (first : Trail host act m l) :
    Trail host (act >>= next) m l
  | goesOn {ε α β : Type} {act : ExceptT ε (StateM (Machine φ)) α}
    {next : α → ExceptT ε (StateM (Machine φ)) β} {a : α} {m m' : Machine φ}
    {l l' : List (Machine φ)} (ended : outcome act m = (.ok a, m')) (first : Trail host act m l)
    (rest : Trail host (next a) m' l') : Trail host (act >>= next) m (l ++ l')
  | locate {α : Type} {act : Eval φ α} {m : Machine φ} {l : List (Machine φ)} (loc : Location)
    (inner : Trail host act m l) : Trail host (Eval.locate loc act) m l
  | pass {body : Eval φ Value} {m : Machine φ} {l : List (Machine φ)}
    (inner : Trail host body m l) : Trail host (Eval.pass body) m l
  | withScope {α : Type} {act : Eval φ α} {m : Machine φ} {l : List (Machine φ)} (name : String)
    (inner : Trail host act (m.pushScope name) l) :
    Trail host (Eval.withScope name act) m
      ([m] ++ l ++ [(outcome (Eval.withScope name act) m).2])
  | lift {ε δ α : Type} {act : ExceptT δ (StateM (Machine φ)) α} {m : Machine φ}
    {l : List (Machine φ)} (inner : Trail host act m l) :
    Trail host (ExceptT.lift act.run : ExceptT ε (StateM (Machine φ)) (Except δ α)) m l

/-- Moments from one machine to another: at each of them the containers have grown out of those of
every moment before. -/
structure Ascends (m : Machine φ) (l : List (Machine φ)) (m' : Machine φ) : Prop where
  first : l.head? = some m
  last : l.getLast? = some m'
  above : ∀ k ∈ l, m.world.heap.Grows k.world.heap
  below : ∀ k ∈ l, k.world.heap.Grows m'.world.heap
  pairwise : l.Pairwise fun k k' => k.world.heap.Grows k'.world.heap

namespace Ascends

variable {m m' k k' : Machine φ} {l l' : List (Machine φ)}

theorem grows (ascends : Ascends m l m') : m.world.heap.Grows m'.world.heap :=
  ascends.above m' (List.mem_of_getLast? ascends.last)

theorem single (m : Machine φ) : Ascends m [m] m := by
  constructor <;> simp [Heap.Grows.refl]

theorem append (before : Ascends m l k) (step : k.world.heap.Grows k'.world.heap)
    (after : Ascends k' l' m') : Ascends m (l ++ l') m' where
  first := by simp [before.first]
  last := by simp [after.last]
  above j member := by
    rcases List.mem_append.1 member with early | late
    · exact before.above j early
    · exact (before.grows.trans step).trans (after.above j late)
  below j member := by
    rcases List.mem_append.1 member with early | late
    · exact (before.below j early).trans (step.trans after.grows)
    · exact after.below j late
  pairwise := by
    refine List.pairwise_append.2 ⟨before.pairwise, after.pairwise, ?_⟩
    intro i early j late
    exact (before.below i early).trans (step.trans (after.above j late))

theorem step (grows : m.world.heap.Grows m'.world.heap) : Ascends m [m, m'] m' :=
  (single m).append grows (single m')

end Ascends

theorem grows_outcome_indexSet (owner key value : Value) (m : Machine φ) :
    m.world.heap.Grows (outcome (Eval.indexSet owner key value : Eval φ Unit) m).2.world.heap := by
  rw [Eval.outcome_indexSet]
  cases written : m.world.heap.indexSet owner key value with
  | error fault => exact .refl _
  | ok h => exact .indexSet written

/-- Along every trail containers only grow. -/
theorem Trail.ascends {host : Host φ} (keeps : host.KeepsContainers)
    {act : ExceptT ε (StateM (Machine φ)) α} {m : Machine φ} {l : List (Machine φ)}
    (trail : Trail host act m l) : Ascends m l (outcome act m).2 := by
  induction trail with
  | pure | throw | get => exact .single _
  | quiet m same => exact .step (same ▸ .refl _)
  | newList items m => exact .step (.newList _ items)
  | newMap entries m => exact .step (.newMap _ entries)
  | indexSet owner key value m => exact .step (grows_outcome_indexSet owner key value m)
  | call function args m =>
    rw [Eval.outcome_ofAction]
    exact .step (keeps.grows function args m)
  | failed ended first ih =>
    rw [ended] at ih
    rw [outcome_bind, ended]
    exact ih
  | goesOn ended first rest before after =>
    rw [ended] at before
    rw [outcome_bind, ended]
    exact before.append (.refl _) after
  | locate loc inner ih =>
    rw [Eval.outcome_locate]
    exact ih
  | pass inner ih =>
    rw [Eval.outcome_pass]
    exact ih
  | @withScope _ act m l name inner ih =>
    -- Entering and leaving a scope leaves the containers as they are.
    have entered : m.world.heap.Grows (m.pushScope name).world.heap := .refl _
    have left : (outcome act (m.pushScope name)).2.world.heap.Grows
        ((outcome act (m.pushScope name)).2.truncate m.self.scopes.depth).world.heap := .refl _
    rw [Eval.outcome_withScope]
    exact ((Ascends.single m).append entered ih).append left (.single _)
  | lift inner ih => exact ih

/-! ## What runs through intact machines -/

/-- From every intact machine whose containers have grown out of `h`, the action runs through
intact machines; if it ends with a value, the value stands in the relation `Q` to the containers
there are then. -/
def Runs (host : Host φ) (h : Heap) (Q : Heap → α → Prop)
    (act : ExceptT ε (StateM (Machine φ)) α) : Prop :=
  ∀ m : Machine φ, m.Intact → h.Grows m.world.heap →
    ∃ l, Trail host act m l ∧ (∀ k ∈ l, k.Intact) ∧
      ∀ a, (outcome act m).1 = .ok a → Q (outcome act m).2.world.heap a

/-- No condition on a value. -/
def Any (_ : Heap) (_ : α) : Prop := True

namespace Runs

variable {host : Host φ} {h h' : Heap} {Q : Heap → α → Prop} {Q' : Heap → β → Prop}

theorem imp {P : Heap → α → Prop} {act : ExceptT ε (StateM (Machine φ)) α} (run : Runs host h P act)
    (weaker : ∀ h' a, P h' a → Q h' a) : Runs host h Q act := by
  intro m intact grows
  obtain ⟨l, trail, all, result⟩ := run m intact grows
  exact ⟨l, trail, all, fun a ended => weaker _ a (result a ended)⟩

/-- What runs after less has grown runs after more has. -/
theorem later {act : ExceptT ε (StateM (Machine φ)) α} (run : Runs host h Q act)
    (grown : h.Grows h') : Runs host h' Q act :=
  fun m intact grows => run m intact (grown.trans grows)

theorem pure {a : α} (holds : ∀ h', h.Grows h' → Q h' a) :
    Runs host h Q (pure a : ExceptT ε (StateM (Machine φ)) α) := by
  intro m intact grows
  refine ⟨[m], .pure a m, by simpa using intact, ?_⟩
  intro b ended
  cases ended
  exact holds _ grows

theorem done (a : α) : Runs host h Any (Pure.pure a : ExceptT ε (StateM (Machine φ)) α) :=
  pure fun _ _ => trivial

theorem throw (e : ε) : Runs host h Q (throw e : ExceptT ε (StateM (Machine φ)) α) := by
  intro m intact _
  refine ⟨[m], .throw e m, by simpa using intact, ?_⟩
  intro a ended
  cases ended

theorem bind (keeps : host.KeepsContainers) {act : ExceptT ε (StateM (Machine φ)) α}
    {next : α → ExceptT ε (StateM (Machine φ)) β} (first : Runs host h Q act)
    (rest : ∀ h' a, h.Grows h' → Q h' a → Runs host h' Q' (next a)) :
    Runs host h Q' (act >>= next) := by
  intro m intact grows
  obtain ⟨l, trail, all, result⟩ := first m intact grows
  have ascends := trail.ascends keeps
  rcases ended : outcome act m with ⟨e | a, m'⟩
  · refine ⟨l, .failed ended trail, all, ?_⟩
    rw [outcome_bind, ended]
    intro b impossible
    cases impossible
  · rw [ended] at ascends result
    have here : m'.Intact := all m' (List.mem_of_getLast? ascends.last)
    have grown := grows.trans ascends.grows
    obtain ⟨l', trail', all', result'⟩ :=
      rest m'.world.heap a grown (result a rfl) m' here (.refl _)
    refine ⟨l ++ l', .goesOn ended trail trail', ?_, ?_⟩
    · intro k member
      exact (List.mem_append.1 member).elim (all k) (all' k)
    · rw [outcome_bind, ended]
      exact result'

/-- A step that touches no container. -/
theorem quiet {f : Machine φ → Machine φ} (same : ∀ m, (f m).world.heap = m.world.heap)
    (intact : ∀ m, m.Intact → h.Grows m.world.heap → (f m).Intact) :
    Runs host h Any (modify f : ExceptT ε (StateM (Machine φ)) PUnit) := by
  intro m here grows
  refine ⟨[m, f m], .quiet m (same m), ?_, fun _ _ => trivial⟩
  simp [here, intact m here grows]

/-- A step that touches neither containers nor bindings. -/
theorem unseen {f : Machine φ → Machine φ} (heap : ∀ m, (f m).world.heap = m.world.heap)
    (scopes : ∀ m, (f m).world.scopes = m.world.scopes) :
    Runs host h Any (modify f : ExceptT ε (StateM (Machine φ)) PUnit) := by
  refine quiet heap fun m intact _ => ⟨?_, ?_⟩
  · rw [heap m]
    exact intact.heap
  · rw [heap m, scopes m]
    exact intact.bindings

theorem lift {act : ExceptT δ (StateM (Machine φ)) α} (run : Runs host h Q act) :
    Runs host h (fun h' r => ∀ a, r = .ok a → Q h' a)
      (ExceptT.lift act.run : ExceptT ε (StateM (Machine φ)) (Except δ α)) := by
  intro m intact grows
  obtain ⟨l, trail, all, result⟩ := run m intact grows
  refine ⟨l, .lift trail, all, ?_⟩
  rw [outcome_lift]
  intro r ended
  cases ended
  exact result

/-! ### Parts of programs -/

theorem scalar {v : Value} (none : v.isContainer = false) :
    Runs host h Heap.Known (Pure.pure v : Eval φ Value) :=
  pure fun _ _ => Heap.known_of_scalar none

theorem fail (fault : RuntimeFault) : Runs host h Q (Eval.fail fault : Eval φ α) :=
  throw _

theorem ofResult {r : Except RuntimeFault α} (holds : ∀ a, r = .ok a → ∀ h', h.Grows h' → Q h' a) :
    Runs host h Q (Eval.ofResult r : Eval φ α) := by
  cases r with
  | ok a => exact pure (holds a rfl)
  | error fault => exact fail fault

/-- Looks at the machine and goes on. -/
theorem look (keeps : host.KeepsContainers)
    {next : Machine φ → ExceptT ε (StateM (Machine φ)) β}
    (rest : ∀ m : Machine φ, m.Intact → h.Grows m.world.heap → Runs host m.world.heap Q' (next m)) :
    Runs host h Q' (get >>= next) := by
  have seen : Runs host h (fun h' m => m.Intact ∧ m.world.heap = h')
      (get : ExceptT ε (StateM (Machine φ)) (Machine φ)) := by
    intro m intact grows
    refine ⟨[m], .get m, by simpa using intact, ?_⟩
    intro a ended
    cases ended
    exact ⟨intact, rfl⟩
  refine seen.bind keeps ?_
  rintro _ m grown ⟨intact, rfl⟩
  exact rest m intact grown

theorem observe {g : Machine φ → α}
    (holds : ∀ m : Machine φ, m.Intact → h.Grows m.world.heap → Q m.world.heap (g m)) :
    Runs host h Q (Eval.observe g) := by
  intro m intact grows
  refine ⟨[m] ++ [m], .goesOn rfl (.get m) (.pure (g m) m), by simpa using intact, ?_⟩
  intro a ended
  cases ended
  exact holds m intact grows

theorem locate {act : Eval φ α} (loc : Location) (run : Runs host h Q act) :
    Runs host h Q (Eval.locate loc act) := by
  intro m intact grows
  obtain ⟨l, trail, all, result⟩ := run m intact grows
  refine ⟨l, .locate loc trail, all, ?_⟩
  rw [Eval.outcome_locate]
  intro a ended
  refine result a ?_
  cases inner : (outcome act m).1 with
  | error exit =>
    rw [inner] at ended
    cases ended
  | ok b =>
    rw [inner] at ended
    exact ended

theorem pass {body : Eval φ Value} (run : Runs host h Heap.Known body) :
    Runs host h (fun h' ended => ∀ v, ended = .value v → h'.Known v) (Eval.pass body) := by
  intro m intact grows
  obtain ⟨l, trail, all, result⟩ := run m intact grows
  refine ⟨l, .pass trail, all, ?_⟩
  rw [Eval.outcome_pass]
  intro ended how v value
  subst value
  refine result v ?_
  rcases inner : (outcome body m).1 with (_ | _ | _ | _) | w
  all_goals
    rw [inner] at how
    cases how
  rfl

theorem withScope {act : Eval φ α} (keeps : host.KeepsContainers) (name : String)
    (run : Runs host h Q act) : Runs host h Q (Eval.withScope name act) := by
  intro m intact grows
  obtain ⟨l, trail, all, result⟩ := run (m.pushScope name) (intact.pushScope name) grows
  refine ⟨_, .withScope name trail, ?_, ?_⟩
  · intro k member
    have ended := all _ (List.mem_of_getLast? (trail.ascends keeps).last)
    rw [Eval.outcome_withScope] at member
    simp only [List.mem_append, List.mem_singleton] at member
    rcases member with (start | inside) | left
    · exact start ▸ intact
    · exact all k inside
    · exact left ▸ ⟨ended.heap, ended.bindings⟩
  · rw [Eval.outcome_withScope]
    exact result

theorem assign (name : String) {v : Value} (known : h.Known v) :
    Runs host h Any (Eval.assign name v : Eval φ Unit) :=
  quiet (fun _ => rfl) fun _ intact grows => intact.assign name (grows.known known)

theorem newList {items : Array Value} (known : h.KnownAll items) :
    Runs host h h.Fresh (Eval.newList items : Eval φ Value) := by
  intro m intact grows
  have closed := intact.heap.newList (grows.knownAll known)
  refine ⟨_, .newList items m, ?_, ?_⟩
  · simp only [List.mem_cons, List.not_mem_nil, or_false, forall_eq_or_imp, forall_eq]
    exact ⟨intact, intact.withHeap (.newList _ items) closed⟩
  · intro v ended
    cases ended
    refine ⟨?_, Nat.not_lt.2 grows.lists⟩
    show m.world.heap.lists.size < (m.world.heap.lists.push items).size
    simp

theorem newMap {entries : OrderedMap Value} (distinct : entries.Distinct)
    (known : ∀ e ∈ entries.entries, h.Known e.2) :
    Runs host h h.Fresh (Eval.newMap entries : Eval φ Value) := by
  intro m intact grows
  have closed := intact.heap.newMap distinct fun e member => grows.known (known e member)
  refine ⟨_, .newMap entries m, ?_, ?_⟩
  · simp only [List.mem_cons, List.not_mem_nil, or_false, forall_eq_or_imp, forall_eq]
    exact ⟨intact, intact.withHeap (.newMap _ entries) closed⟩
  · intro v ended
    cases ended
    refine ⟨?_, Nat.not_lt.2 grows.maps⟩
    show m.world.heap.maps.size < (m.world.heap.maps.push entries).size
    simp

theorem indexSet (owner key : Value) {v : Value} (known : h.Known v) :
    Runs host h Any (Eval.indexSet owner key v : Eval φ Unit) := by
  intro m intact grows
  refine ⟨_, .indexSet owner key v m, ?_, fun _ _ => trivial⟩
  simp only [List.mem_cons, List.not_mem_nil, or_false, forall_eq_or_imp, forall_eq]
  refine ⟨intact, ?_⟩
  rw [Eval.outcome_indexSet]
  cases written : m.world.heap.indexSet owner key v with
  | error fault => exact intact
  | ok heap =>
    exact intact.withHeap (.indexSet written) (intact.heap.indexSet (grows.known known) written)

theorem call (keeps : host.KeepsContainers) (function : φ) {args : List Value}
    (known : ∀ v ∈ args, h.Known v) :
    Runs host h Heap.Known (Eval.ofAction (host function args)) := by
  intro m intact grows
  have called := keeps.intact function args m intact fun v member => grows.known (known v member)
  refine ⟨_, .call function args m, ?_, ?_⟩
  · simp only [List.mem_cons, List.not_mem_nil, or_false, forall_eq_or_imp, forall_eq]
    exact ⟨intact, called.1⟩
  · rw [Eval.outcome_ofAction]
    intro v ended
    refine called.2 v ?_
    cases result : (outcome (host function args) m).1 with
    | error stop =>
      rw [result] at ended
      cases ended
    | ok w =>
      rw [result] at ended
      cases ended
      rfl

end Runs

end Polyglot
