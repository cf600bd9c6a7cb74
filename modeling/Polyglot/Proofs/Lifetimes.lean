import Polyglot.Proofs.Eval.Trails

/-!
# What becomes of containers

Containers live as long as the process. Over a whole run, at any two of its moments, a list that is
there at the first is there at the second with its length, and a map with its names in their order;
no map ever has a name twice. A literal of a list or a map, and a loop that retains, always gives a
container that was not there before it was evaluated.
-/

namespace Polyglot

variable {φ ε α : Type}

namespace Runs

variable {host : Host φ} {h : Heap} (keeps : host.KeepsContainers)

include keeps

/-! ## Steps -/

theorem lookup (name : String) : Runs host h Heap.Known (Eval.lookup name : Eval φ Value) := by
  refine look keeps fun m intact _ => pure fun h' grown => grown.known ?_
  cases found : m.get? name with
  | none => trivial
  | some v => exact intact.get? found

theorem display (v : Value) : Runs host h Any (Eval.display v : Eval φ String) :=
  look keeps fun _ _ _ => done _

theorem binary (op : BinaryOp) (a b : Value) :
    Runs host h Heap.Known (Eval.binary op a b : Eval φ Value) :=
  look keeps fun _ _ _ => ofResult fun _ result _ _ =>
    Heap.known_of_scalar (Heap.isContainer_of_binary result)

theorem indexGet (owner key : Value) :
    Runs host h Heap.Known (Eval.indexGet owner key : Eval φ Value) :=
  look keeps fun _ intact _ => ofResult fun _ read _ grown =>
    grown.known (intact.heap.indexGet read)

theorem checkpoint (count : Nat) : Runs host h Any (Eval.checkpoint count : Eval φ Unit) := by
  rw [Eval.checkpoint_eq]
  refine bind keeps (observe fun _ _ _ => trivial : Runs host h Any _) fun _ self _ _ => ?_
  split
  · exact fail _
  · split
    · split
      · exact fail _
      · exact done ()
    · exact done ()

theorem boundOf {bound : Eval φ Value} (loc : Location) (run : Runs host h Heap.Known bound) :
    Runs host h Any (Eval.boundOf loc bound) := by
  refine run.bind keeps fun _ limit _ _ => ?_
  split
  · exact done _
  · exact locate loc (fail _)

theorem counterOf (name : String) : Runs host h Any (Eval.counterOf name : Eval φ Float) := by
  refine (lookup keeps name).bind keeps fun _ value _ _ => ?_
  split
  · exact done _
  · exact fail _

theorem moveCounter {step : Eval φ Value} (name : String) (direction : Direction) (loc : Location)
    (run : Runs host h Heap.Known step) :
    Runs host h Any (Eval.moveCounter name direction loc step) := by
  rw [Eval.moveCounter_eq]
  refine run.bind keeps fun _ delta _ _ => ?_
  split
  · refine (lookup keeps name).bind keeps fun _ current _ _ => ?_
    exact (binary keeps _ current delta).bind keeps fun _ next _ known => assign name known
  · exact locate loc (fail _)

theorem bindTarget (target : LoopTarget) {item : Value} (known : h.Known item) :
    Runs host h Any (Eval.bindTarget target item : Eval φ Unit) := by
  cases target with
  | single name => exact assign name.item known
  | pair first second =>
    refine look keeps fun m intact _ => ?_
    have parts : m.world.heap.KnownAll ((m.world.heap.listItems? item).getD #[]) := by
      cases found : m.world.heap.listItems? item with
      | none => simp
      | some items => exact intact.heap.listItems? found
    dsimp only
    split
    · rename_i a b here there
      refine (assign first.item (parts a (Array.mem_of_getElem? here))).bind keeps ?_
      intro _ _ grown _
      exact assign second.item (grown.known (parts b (Array.mem_of_getElem? there)))
    · exact locate first.loc (fail _)

/-! ## Loops -/

omit keeps in
theorem knownAll_keep {kept : Array Value} {v : Value} (retain : Bool) (all : h.KnownAll kept)
    (known : h.Known v) : h.KnownAll (Eval.keep retain kept v) := by
  cases retain with
  | false => exact all
  | true => exact all.push known

theorem repeatWhile {goesOn : Eval φ Bool} {body : Eval φ Value} {advance : Eval φ Unit}
    (test : Runs host h Any goesOn) (inner : Runs host h Heap.Known body)
    (move : Runs host h Any advance) (retain : Bool) (fuel : Nat) :
    ∀ {h' : Heap} count kept, h.Grows h' → h'.KnownAll kept →
      Runs host h' Heap.KnownAll (Eval.repeatWhile goesOn body advance retain fuel count kept) := by
  induction fuel with
  | zero => exact fun _ _ _ _ => throw _
  | succ fuel ih =>
    intro h' count kept grown all
    refine (test.later grown).bind keeps fun h₁ goes grown₁ _ => ?_
    cases goes with
    | false => exact pure fun h₂ grown₂ => (grown₁.trans grown₂).knownAll all
    | true =>
      refine (checkpoint keeps count).bind keeps fun h₂ _ grown₂ _ => ?_
      have before := grown₁.trans grown₂
      refine (pass (inner.later (grown.trans before))).bind keeps fun h₃ ended grown₃ value => ?_
      have after := before.trans grown₃
      cases ended with
      | leave => exact pure fun h₄ grown₄ => (after.trans grown₄).knownAll all
      | next =>
        refine (move.later (grown.trans after)).bind keeps fun h₄ _ grown₄ _ => ?_
        exact ih _ _ (grown.trans (after.trans grown₄)) ((after.trans grown₄).knownAll all)
      | value v =>
        refine (move.later (grown.trans after)).bind keeps fun h₄ _ grown₄ _ => ?_
        exact ih _ _ (grown.trans (after.trans grown₄))
          (knownAll_keep retain ((after.trans grown₄).knownAll all) (grown₄.known (value v rfl)))

theorem forEach (target : LoopTarget) {body : Eval φ Value} (inner : Runs host h Heap.Known body)
    (retain : Bool) (items : List Value) :
    ∀ {h' : Heap} count kept, h.Grows h' → (∀ v ∈ items, h'.Known v) → h'.KnownAll kept →
      Runs host h' Heap.KnownAll
        (Eval.forEach (Eval.bindTarget target) body retain items count kept) := by
  induction items with
  | nil => exact fun _ _ _ _ all => pure fun h₁ grown₁ => grown₁.knownAll all
  | cons item items ih =>
    intro h' count kept grown there all
    refine (checkpoint keeps count).bind keeps fun h₁ _ grown₁ _ => ?_
    have known := grown₁.known (there item List.mem_cons_self)
    refine (bindTarget keeps target known).bind keeps fun h₂ _ grown₂ _ => ?_
    have before := grown₁.trans grown₂
    refine (pass (inner.later (grown.trans before))).bind keeps fun h₃ ended grown₃ value => ?_
    have after := before.trans grown₃
    have rest : ∀ v ∈ items, h₃.Known v :=
      fun v member => after.known (there v (List.mem_cons_of_mem _ member))
    cases ended with
    | leave => exact pure fun h₄ grown₄ => (after.trans grown₄).knownAll all
    | next => exact ih _ _ (grown.trans after) rest (after.knownAll all)
    | value v =>
      exact ih _ _ (grown.trans after) rest
        (knownAll_keep retain (after.knownAll all) (value v rfl))

end Runs

/-! ## Trees -/

/-- Literals of lists and maps, and loops that retain. -/
def Node.makesContainer : Node → Bool
  | array .. | object .. => true
  | whileLoop _ _ _ retain | countLoop _ _ _ _ _ _ _ retain | eachLoop _ _ _ _ retain => retain
  | _ => false

/-- The value of a node is there; if the node makes a container, it was not there before. -/
def Node.Gives (n : Node) (h h' : Heap) (v : Value) : Prop :=
  h'.Known v ∧ (n.makesContainer = true → ¬ h.Known v)

namespace Runs

variable {host : Host φ} {h h' : Heap} {n : Node}

theorem gives {act : Eval φ Value} (other : n.makesContainer = false)
    (run : Runs host h Heap.Known act) : Runs host h (n.Gives h) act :=
  run.imp fun _ _ known => ⟨known, by simp [other]⟩

theorem known {act : Eval φ Value} (run : Runs host h (n.Gives h) act) :
    Runs host h Heap.Known act :=
  run.imp fun _ _ gives => gives.1

/-- What is new now was not there before either. -/
theorem givesFresh {act : Eval φ Value} (grown : h.Grows h') (run : Runs host h' h'.Fresh act) :
    Runs host h' (n.Gives h) act :=
  run.imp fun _ _ fresh => ⟨fresh.1, fun _ old => fresh.2 (grown.known old)⟩

theorem loopValue {retain : Bool} {kept : Array Value} (makes : n.makesContainer = retain)
    (grown : h.Grows h') (all : h'.KnownAll kept) :
    Runs host h' (n.Gives h) (Eval.loopValue retain kept : Eval φ Value) := by
  cases retain with
  | true => exact givesFresh grown (newList all)
  | false => exact pure fun _ _ => ⟨trivial, by simp [makes]⟩

variable (keeps : host.KeepsContainers) (budget : Nat)

include keeps

mutual

/-- Evaluating a tree runs through intact machines. A value it ends with is there afterwards, and
is new if the tree makes a container. -/
theorem eval : ∀ (n : Node) (h : Heap), Runs host h (n.Gives h) (n.eval host budget)
  | .constant _ value, h => by
    simp only [Node.eval]
    exact locate _ (gives rfl (scalar (by cases value <;> rfl)))
  | .name _ s, h => by
    simp only [Node.eval]
    exact locate _ (gives rfl (lookup keeps s))
  | .block _ body, h => by
    simp only [Node.eval]
    exact locate _ (gives rfl (withScope keeps _ (evalBody body h trivial)))
  | .statement _ value, h => by
    simp only [Node.eval]
    exact locate _ (gives rfl (eval value h).known)
  | .assign _ target value, h => by
    cases target with
    | name _ s =>
      simp only [Node.eval]
      refine locate _ (gives rfl ((eval value h).known.bind keeps fun h₁ v _ known => ?_))
      refine (assign s known).bind keeps fun h₂ _ grown₂ _ => ?_
      exact pure fun _ grown => (grown₂.trans grown).known known
    | index loc owner key =>
      simp only [Node.eval]
      refine locate _ (gives rfl ((eval value h).known.bind keeps fun h₁ v _ known => ?_))
      refine (eval owner h₁).bind keeps fun h₂ o grown₂ _ => ?_
      refine (eval key h₂).bind keeps fun h₃ k grown₃ _ => ?_
      have here := (grown₂.trans grown₃).known known
      refine (locate loc (indexSet o k here)).bind keeps fun h₄ _ grown₄ _ => ?_
      exact pure fun _ grown => (grown₄.trans grown).known here
    | _ =>
      rw [Node.eval_assign_bad host budget rfl]
      exact locate _ ((eval value h).bind keeps fun _ _ _ _ => fail _)
  | .call _ callee args, h => by
    simp only [Node.eval]
    refine locate _ (gives rfl (look keeps fun m _ _ => ?_))
    split
    · have reported : Runs host m.world.heap Any
          (modify (Node.reportUnknown callee.item) : Eval φ PUnit) :=
        unseen (fun _ => rfl) fun _ => rfl
      exact reported.bind keeps fun _ _ _ _ => scalar rfl
    · exact (evalAll args _).bind keeps fun _ values _ known => call keeps _ known
  | .binary _ left op right, h => by
    simp only [Node.eval]
    refine locate _ (gives rfl ((eval left h).bind keeps fun h₁ a _ _ => ?_))
    exact (eval right h₁).bind keeps fun _ b _ _ => binary keeps op a b
  | .unary _ op operand, h => by
    simp only [Node.eval]
    refine locate _ (gives rfl ((eval operand h).bind keeps fun _ v _ _ => ?_))
    exact ofResult fun _ result _ _ => Heap.known_of_scalar (Heap.isContainer_of_unary result)
  | .logical _ left op right, h => by
    simp only [Node.eval]
    refine locate _ (gives rfl ((eval left h).known.bind keeps fun h₁ a _ known => ?_))
    cases op with
    | nullish =>
      dsimp only
      split
      · exact (eval right h₁).known
      · exact pure fun _ grown => grown.known known
    | and =>
      dsimp only
      split
      · exact (eval right h₁).bind keeps fun _ _ _ _ => scalar rfl
      · exact scalar rfl
    | or =>
      dsimp only
      split
      · exact scalar rfl
      · exact (eval right h₁).bind keeps fun _ _ _ _ => scalar rfl
  | .conditional _ condition thenBranch none, h => by
    simp only [Node.eval]
    refine locate _ (gives rfl ((eval condition h).bind keeps fun h₁ _ _ _ => ?_))
    split
    · exact (eval thenBranch h₁).known
    · exact scalar rfl
  | .conditional _ condition thenBranch (some elseBranch), h => by
    simp only [Node.eval]
    refine locate _ (gives rfl ((eval condition h).bind keeps fun h₁ _ _ _ => ?_))
    split
    · exact (eval thenBranch h₁).known
    · exact (eval elseBranch h₁).known
  | .index _ owner key, h => by
    simp only [Node.eval]
    refine locate _ (gives rfl ((eval owner h).bind keeps fun h₁ o _ _ => ?_))
    exact (eval key h₁).bind keeps fun _ k _ _ => indexGet keeps o k
  | .object _ properties, h => by
    simp only [Node.eval]
    have empty : ∀ e ∈ ({} : OrderedMap Value).entries, h.Known e.2 := by simp
    refine locate _ ((evalProperties properties h OrderedMap.distinct_empty empty).bind keeps ?_)
    intro _ entries grown result
    exact givesFresh grown (newMap result.1 result.2)
  | .array _ items, h => by
    simp only [Node.eval]
    refine locate _ ((evalAll items h).bind keeps fun _ values grown known => ?_)
    exact givesFresh grown (newList (by simpa [Heap.KnownAll] using known))
  | .whileLoop _ condition body retain, h => by
    have test := (eval condition h).bind keeps fun _ c _ _ => done c.truthy
    have repeated := repeatWhile keeps test (eval body h).known (done ()) retain budget 0 #[]
      (.refl h) (Heap.knownAll_empty _)
    simp only [Node.eval]
    refine locate _ (repeated.bind keeps fun _ kept grown all => ?_)
    exact loopValue rfl grown all
  | .countLoop _ counter start bound direction step body retain, h => by
    have test := (boundOf keeps bound.loc (eval bound h).known).bind keeps fun _ limit _ _ =>
      (counterOf keeps counter.item).bind keeps fun _ current _ _ =>
        done (Eval.inRange direction limit current)
    have move := moveCounter keeps counter.item direction step.loc (eval step h).known
    simp only [Node.eval]
    refine locate _ (withScope keeps _ ((eval start h).known.bind keeps ?_))
    intro h₁ v grown₁ known
    refine (assign counter.item known).bind keeps fun h₂ _ grown₂ _ => ?_
    have begun := grown₁.trans grown₂
    have repeated := repeatWhile keeps test (eval body h).known move retain budget 0 #[] begun
      (Heap.knownAll_empty _)
    exact repeated.bind keeps fun _ kept grown all => loopValue rfl (begun.trans grown) all
  | .eachLoop _ target collection body retain, h => by
    simp only [Node.eval]
    refine locate _ ((eval collection h).bind keeps fun h₁ v grown₁ _ => ?_)
    refine look keeps fun m intact grown₂ => ?_
    split
    · exact fail _
    · rename_i items found
      have there : ∀ v ∈ items.toList, m.world.heap.Known v := by
        intro w member
        exact intact.heap.listItems? found w (by simpa using member)
      have grown := grown₁.trans grown₂
      have repeated := forEach keeps target (eval body h).known retain items.toList 0 #[] grown
        there (Heap.knownAll_empty _)
      refine withScope keeps _ (repeated.bind keeps fun _ kept grown₃ all => ?_)
      exact loopValue rfl (grown.trans grown₃) all
  | .breakLoop _, h => by
    simp only [Node.eval]
    exact locate _ (throw _)
  | .continueLoop _, h => by
    simp only [Node.eval]
    exact locate _ (throw _)
  | .returnValue _ none, h => by
    simp only [Node.eval]
    exact locate _ (throw _)
  | .returnValue _ (some value), h => by
    simp only [Node.eval]
    exact locate _ ((eval value h).bind keeps fun _ _ _ _ => throw _)

theorem evalAll : ∀ (ns : List Node) (h : Heap),
    Runs host h (fun h' vs => ∀ v ∈ vs, h'.Known v) (Node.evalAll host budget ns)
  | [], h => by
    simp only [Node.evalAll]
    exact pure fun _ _ => by simp
  | n :: ns, h => by
    simp only [Node.evalAll]
    refine (eval n h).bind keeps fun h₁ v _ gives => ?_
    refine (evalAll ns h₁).bind keeps fun h₂ vs grown₂ known => pure fun h₃ grown₃ => ?_
    intro w member
    rcases List.mem_cons.1 member with here | later
    · exact here ▸ (grown₂.trans grown₃).known gives.1
    · exact grown₃.known (known w later)

theorem evalBody : ∀ {last : Value} (ns : List Node) (h : Heap), h.Known last →
    Runs host h Heap.Known (Node.evalBody host budget last ns)
  | last, [], h, known => by
    simp only [Node.evalBody]
    exact pure fun _ grown => grown.known known
  | last, n :: ns, h, _ => by
    simp only [Node.evalBody]
    exact (eval n h).bind keeps fun h₁ v _ gives => evalBody ns h₁ gives.1

theorem evalProperties : ∀ {entries : OrderedMap Value} (ps : List (Node × Node)) (h : Heap),
    entries.Distinct → (∀ e ∈ entries.entries, h.Known e.2) →
    Runs host h (fun h' es => es.Distinct ∧ ∀ e ∈ es.entries, h'.Known e.2)
      (Node.evalProperties host budget entries ps)
  | entries, [], h, distinct, known => by
    simp only [Node.evalProperties]
    exact pure fun _ grown => ⟨distinct, fun e member => grown.known (known e member)⟩
  | entries, (key, value) :: ps, h, distinct, known => by
    simp only [Node.evalProperties]
    refine (eval key h).bind keeps fun h₁ k grown₁ _ => ?_
    refine (eval value h₁).bind keeps fun h₂ v grown₂ gives => ?_
    refine (display keeps k).bind keeps fun h₃ text grown₃ _ => ?_
    refine evalProperties ps h₃ (distinct.insert text v) ?_
    intro e member
    rcases OrderedMap.mem_insert member with new | old
    · exact new ▸ grown₃.known gives.1
    · exact ((grown₁.trans grown₂).trans grown₃).known (known e old)

end

/-! ## Programs -/

theorem evalStatements (ns : List Node) : ∀ (last : Value) (h : Heap),
    Runs host h Any (Program.evalStatements host budget last ns) := by
  induction ns with
  | nil => exact fun last _ => done last
  | cons n ns ih =>
    intro last h
    refine (lift (eval keeps budget n h)).bind keeps fun h₁ result _ _ => ?_
    split
    · exact ih _ h₁
    · exact done _
    · exact throw _
    · exact throw _
    · exact throw _

theorem executeProgram (p : Program) (h : Heap) :
    Runs host h Any (executeProgram host budget p) := by
  have started : Runs host h Any
      (modify fun m => m.report (.started p.name p.body.length) : Action φ PUnit) :=
    unseen (fun _ => rfl) fun _ => rfl
  refine started.bind keeps fun h₁ _ _ _ => look keeps fun m _ _ => ?_
  refine (lift (evalStatements keeps budget p.body .null _)).bind keeps fun h₂ result _ _ => ?_
  have ended : Runs host h₂ Any (modify fun k => (k.truncate m.self.scopes.depth).report
      (endOfRun result) : Action φ PUnit) := unseen (fun _ => rfl) fun _ => rfl
  refine ended.bind keeps fun _ _ _ _ => ?_
  split
  · exact done _
  · exact throw _

end Runs

/-! ## Whole runs -/

/-- The action runs from `m` through machines without dangling values. Whatever the moments of the
run are taken to be, the first is `m` and the last is what the run leaves, however it ends; at any
two of them containers have grown from the earlier to the later, and no map has a name twice. -/
def RunsGrowing (host : Host φ) (act : ExceptT ε (StateM (Machine φ)) α) (m : Machine φ) : Prop :=
  (∃ l, Trail host act m l ∧ ∀ k ∈ l, k.Intact) ∧
  ∀ l, Trail host act m l → l.head? = some m ∧ l.getLast? = some (outcome act m).2 ∧
    l.Pairwise (fun k k' => k.world.heap.Grows k'.world.heap) ∧ ∀ k ∈ l, k.world.heap.Distinct

theorem Runs.growing {host : Host φ} (keeps : host.KeepsContainers) {Q : Heap → α → Prop}
    {act : ExceptT ε (StateM (Machine φ)) α} {m : Machine φ} (run : Runs host m.world.heap Q act)
    (intact : m.Intact) : RunsGrowing host act m := by
  obtain ⟨l, trail, all, -⟩ := run m intact (.refl _)
  have ended := all _ (List.mem_of_getLast? (trail.ascends keeps).last)
  refine ⟨⟨l, trail, all⟩, ?_⟩
  intro l' trail'
  have ascends := trail'.ascends keeps
  refine ⟨ascends.first, ascends.last, ascends.pairwise, ?_⟩
  -- A name that came twice at some moment would still come twice at the end.
  exact fun k member => (ascends.below k member).distinct ended.heap.distinct

theorem RunsGrowing.intact {host : Host φ} {act : ExceptT ε (StateM (Machine φ)) α} {m : Machine φ}
    (growing : RunsGrowing host act m) : (outcome act m).2.Intact := by
  obtain ⟨⟨l, trail, all⟩, every⟩ := growing
  exact all _ (List.mem_of_getLast? (every l trail).2.1)

/-- A value that is bound, or is a container, or stands in something that can be reached. -/
inductive Machine.Reachable (m : Machine φ) : Value → Prop
  | bound {id : Nat} {e : String × Value} (member : e ∈ (m.world.scopes.bindings id).entries) :
    Reachable m e.2
  | container {r : Ref} (there : r ∈ m.world.heap.refs) : Reachable m r.value
  | part {c v : Value} (outer : Reachable m c) (part : m.world.heap.Part c v) : Reachable m v

/-- Nothing can be reached that is not there. -/
theorem Machine.Intact.known_of_reachable {m : Machine φ} (intact : m.Intact) {v : Value}
    (reachable : m.Reachable v) : m.world.heap.Known v := by
  induction reachable with
  | bound member => exact intact.bindings _ _ member
  | @container r there =>
    cases r with
    | list id => exact Heap.list_mem_refs.1 there
    | map id => exact Heap.map_mem_refs.1 there
  | part outer part ih => exact intact.heap.part part

/-- If functions of the host change no container, then neither evaluating a tree nor running a
program ever changes the length of a list, or removes or moves a name of a map, or gives a map a
name twice, whichever two moments of the run are compared and however it ends. What a literal of a
list or a map or a loop that retains ends with is a container that could not be reached before. -/
theorem containers_only_grow (host : Host φ) (keeps : host.KeepsContainers) (budget : Nat)
    (m : Machine φ) (intact : m.Intact) :
    (∀ n : Node, RunsGrowing host (n.eval host budget) m) ∧
    (∀ p : Program, RunsGrowing host (executeProgram host budget p) m) ∧
    ∀ n : Node, n.makesContainer = true → ∀ v m', outcome (n.eval host budget) m = (.ok v, m') →
      (∃ r ∈ m'.world.heap.refs, v = r.value) ∧ ¬ m.Reachable v := by
  refine ⟨fun n => ?_, fun p => ?_, ?_⟩
  · exact (Runs.eval keeps budget n m.world.heap).growing keeps intact
  · exact (Runs.executeProgram keeps budget p m.world.heap).growing keeps intact
  · intro n makes v m' ended
    obtain ⟨_, _, _, result⟩ := Runs.eval keeps budget n m.world.heap m intact (.refl _)
    rw [ended] at result
    obtain ⟨known, new⟩ := result v rfl
    refine ⟨?_, fun reachable => new makes (intact.known_of_reachable reachable)⟩
    obtain ⟨r, rfl⟩ := Heap.exists_ref_of_not_known (new makes)
    cases r with
    | list id => exact ⟨.list id, Heap.list_mem_refs.2 known, rfl⟩
    | map id => exact ⟨.map id, Heap.map_mem_refs.2 known, rfl⟩

theorem Host.echo_keepsContainers : Host.echo.KeepsContainers where
  lists _ _ _ := Nat.le_refl _
  maps _ _ _ := Nat.le_refl _
  items _ _ _ _ _ := rfl
  entries _ _ _ _ _ := rfl
  intact _ args m intact known := by
    refine ⟨intact, ?_⟩
    intro v ended
    cases ended
    cases args with
    | nil => trivial
    | cons v _ => exact known v List.mem_cons_self

theorem Machine.intact_fresh : Machine.fresh.Intact where
  heap := by
    refine ⟨?_, ?_, fun _ => OrderedMap.distinct_empty⟩
    · intro id v member
      simp [Machine.fresh, World.newInterpreter, Heap.items] at member
    · intro id e member
      simp [Machine.fresh, World.newInterpreter, Heap.entries] at member
  bindings id e member := by
    have none : Machine.fresh.world.scopes.bindings id = {} :=
      ScopeStore.bindings_new {} rootName id
    simp [none] at member

/-- Puts a map into itself under a second name, then divides by zero. -/
def selfHolding : Node :=
  .block default
    [.assign default (.name default "a")
      (.object default [(.constant default (.text "x"), .constant default (.int 1))]),
     .assign default (.index default (.name default "a") (.constant default (.text "y")))
      (.name default "a"),
     .binary default (.constant default (.int 1)) .div (.constant default (.int 0))]

/-- The failure leaves the map with both names in their order; a list made afterwards is new. -/
theorem containers_only_grow_selfHolding :
    let after := (outcome (selfHolding.eval Host.echo 0) Machine.fresh).2
    Host.echo.KeepsContainers ∧ Machine.fresh.Intact ∧
      RunsGrowing Host.echo (selfHolding.eval Host.echo 0) Machine.fresh ∧
      (outcome (selfHolding.eval Host.echo 0) Machine.fresh).1 =
        .error (.stopped (.failed ⟨.divisionByZero, some default⟩)) ∧
      (after.world.heap.entries 0).keys = ["x", "y"] ∧
      (outcome ((Node.array default []).eval Host.echo 0) after).1 = .ok (.list 0) ∧
      ¬ after.Reachable (.list 0) := by
  have keeps := Host.echo_keepsContainers
  have intact := Machine.intact_fresh
  have growing := (containers_only_grow Host.echo keeps 0 _ intact).1 selfHolding
  have later := (containers_only_grow Host.echo keeps 0 _ growing.intact).2.2
  refine ⟨keeps, intact, growing, rfl, by decide +kernel, rfl, ?_⟩
  exact (later (.array default []) rfl (.list 0) _ rfl).2

end Polyglot
