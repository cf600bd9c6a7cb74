import Polyglot.Proofs.Eval.Faults
import Polyglot.Proofs.Eval.Outcome
import Polyglot.Proofs.Program.Relocation
import Polyglot.Proofs.Program.Sound

/-!
# Relations that evaluation respects

A relation between actions that each step of evaluation respects holds between the evaluation of a
tree and that of the same tree with other locations under another host. The argument over loops
and over the tree is made once, here; a property of runs, or of pairs of runs, is then an instance
of `Congruence`. The loops of the two sides may also be given different numbers of iterations, if
the relation holds between such loops.
-/

namespace Polyglot

variable {φ α β : Type}

/-- What is read off a machine depends only on its interpreter, its containers and the values of
names in its scopes. -/
def Machine.Visible (g : Machine φ → α) : Prop :=
  ∀ m m', m.self = m'.self → m.world.heap = m'.world.heap →
    (∀ id name, m.world.scopes.get? id name = m'.world.scopes.get? id name) → g m = g m'

theorem Machine.visible_heap (read : Heap → α) :
    Machine.Visible fun m : Machine φ => read m.world.heap :=
  fun _ _ _ heap _ => congrArg read heap

theorem Machine.visible_self (read : Interpreter φ → α) :
    Machine.Visible fun m : Machine φ => read m.self :=
  fun _ _ self _ _ => congrArg read self

open Eval

/-- A relation between actions at a place that single steps respect: those that only read, write
and compute. -/
structure Steps (f : Location → Location)
    (P : Place → ∀ {α : Type}, Eval φ α → Eval φ α → Prop) : Prop where
  pure : ∀ p {α} (a : α), P p (pure a) (pure a)
  bind : ∀ {p} {α β : Type} {act act' : Eval φ α} {next next' : α → Eval φ β},
    P p act act' → (∀ a, P p (next a) (next' a)) → P p (act >>= next) (act' >>= next')
  observe : ∀ p {α} {g : Machine φ → α}, Machine.Visible g → P p (observe g) (observe g)
  fail : ∀ p {α} fault, fault.kind.ofValues = true → P p (fail fault : Eval φ α) (fail fault)
  locate : ∀ {p α} {act act' : Eval φ α} loc, P p act act' →
    P p (locate loc act) (locate (f loc) act')
  assign : ∀ p name v, P p (assign name v) (assign name v)
  newList : ∀ p items, P p (newList items) (newList items)

/-- A relation between actions at a place that each step of evaluation respects, where the second
action has another host and has its locations changed by `f`. -/
structure Congruence (host host' : Host φ) (f : Location → Location)
    (P : Place → ∀ {α : Type}, Eval φ α → Eval φ α → Prop) : Prop where
  pure : ∀ p {α} (a : α), P p (pure a) (pure a)
  bind : ∀ {p} {α β : Type} {act act' : Eval φ α} {next next' : α → Eval φ β},
    P p act act' → (∀ a, P p (next a) (next' a)) → P p (act >>= next) (act' >>= next')
  observe : ∀ p {α} {g : Machine φ → α}, Machine.Visible g → P p (observe g) (observe g)
  fail : ∀ p {α} fault, fault.kind ≠ .internal → P p (fail fault : Eval φ α) (fail fault)
  badTarget : P .anywhere (Eval.fail (.internal "invalid assignment target") : Eval φ Value)
    (Eval.fail (.internal "invalid assignment target"))
  unfinished : ∀ p {α}, P p (throw (.stopped .unfinished) : Eval φ α) (throw (.stopped .unfinished))
  returned : ∀ p {α} v, P p (throw (.returned v) : Eval φ α) (throw (.returned v))
  breakLoop : ∀ {p}, p ≠ .outside → P p (throw .breakLoop : Eval φ Value) (throw .breakLoop)
  continueLoop : ∀ {p}, p ≠ .outside →
    P p (throw .continueLoop : Eval φ Value) (throw .continueLoop)
  locate : ∀ {p α} {act act' : Eval φ α} loc, P p act act' →
    P p (locate loc act) (locate (f loc) act')
  pass : ∀ {p} {body body' : Eval φ Value}, P p.body body body' → P p (pass body) (pass body')
  withScope : ∀ {p α} {act act' : Eval φ α} name, P p act act' →
    P p (withScope name act) (withScope name act')
  assign : ∀ p name v, P p (assign name v) (assign name v)
  newList : ∀ p items, P p (newList items) (newList items)
  newMap : ∀ p entries, P p (newMap entries) (newMap entries)
  indexSet : ∀ p owner key v, P p (indexSet owner key v) (indexSet owner key v)
  unknownCall : ∀ p name, P p (modify (Node.reportUnknown name)) (modify (Node.reportUnknown name))
  call : ∀ p function args, P p (ofAction (host function args)) (ofAction (host' function args))

/-- A relation that each step of evaluation respects, and that loops respect as well where one side
is given `budget` iterations and the other `budget'`. -/
structure LoopCongruence (host host' : Host φ) (f : Location → Location)
    (P : Place → ∀ {α : Type}, Eval φ α → Eval φ α → Prop) (budget budget' : Nat) : Prop
    extends Congruence host host' f P where
  loops : ∀ {p : Place} {goesOn goesOn' : Eval φ Bool} {body body' : Eval φ Value}
    {advance advance' : Eval φ Unit}, P p goesOn goesOn' → P p.body body body' →
    P p advance advance' → ∀ retain,
      P p (repeatWhile goesOn body advance retain budget 0 #[])
        (repeatWhile goesOn' body' advance' retain budget' 0 #[])

namespace Node

variable (host : Host φ) (budget : Nat)

theorem eval_assign_bad {target : Node} (bad : Grammar.isTarget target = false) (loc : Location)
    (value : Node) :
    (assign loc target value).eval host budget = Eval.locate loc (do
      let _ ← value.eval host budget
      Eval.fail (.internal "invalid assignment target")) := by
  cases target with
  | name | index => cases bad
  | _ =>
    simp only [eval]
    rfl

theorem eval_call (loc : Location) (callee : Located String) (args : List Node) :
    (call loc callee args).eval host budget = Eval.locate loc (do
      match ← Eval.observe fun m => m.self.functions.get? callee.item with
      | none => do
        modify (reportUnknown callee.item)
        return .null
      | some function => do
        let values ← evalAll host budget args
        Eval.ofAction (host function values)) := by
  rw [eval]
  rfl

theorem eval_eachLoop (loc : Location) (target : LoopTarget) (collection body : Node)
    (retain : Bool) :
    (eachLoop loc target collection body retain).eval host budget = Eval.locate loc (do
      let v ← collection.eval host budget
      match ← Eval.observe fun m => m.world.heap.listItems? v with
      | none => Eval.fail (.notIterable v.typeName)
      | some items =>
        Eval.withScope "for-of" do
          Eval.loopValue retain (← Eval.forEach (Eval.bindTarget target) (body.eval host budget)
            retain items.toList 0 #[])) := by
  rw [eval]
  rfl

end Node

namespace Steps

variable {f : Location → Location} {P : Place → ∀ {α : Type}, Eval φ α → Eval φ α → Prop}
  (h : Steps f P) {p : Place}

include h

theorem lookup (name : String) : P p (lookup name) (lookup name) := by
  refine h.observe p (g := fun m => (m.get? name).getD .null) ?_
  intro m m' self _ scopes
  simp only [Machine.get?, ScopeStack.get?, self, scopes]

theorem display (v : Value) : P p (display v) (display v) :=
  h.observe p (Machine.visible_heap fun heap => heap.display v)

theorem ofResult (r : Except RuntimeFault α)
    (regular : ∀ fault, r = .error fault → fault.kind.ofValues = true) :
    P p (Eval.ofResult r : Eval φ α) (Eval.ofResult r) := by
  cases r with
  | ok a => exact h.pure p a
  | error fault => exact h.fail p fault (regular fault rfl)

/-- Reads the containers and goes on with them. -/
theorem readHeap (next next' : Heap → Eval φ β) (rest : ∀ heap, P p (next heap) (next' heap)) :
    P p (get >>= fun m => next m.world.heap) (get >>= fun m => next' m.world.heap) := by
  have split : ∀ k : Heap → Eval φ β,
      (get >>= fun m => k m.world.heap) = Eval.observe (fun m => m.world.heap) >>= k := fun _ => rfl
  rw [split, split]
  exact h.bind (h.observe p (Machine.visible_heap id)) rest

theorem binary (op : BinaryOp) (a b : Value) :
    P p (Eval.binary op a b : Eval φ Value) (Eval.binary op a b) :=
  h.readHeap (fun heap => Eval.ofResult (heap.binary op a b)) _ fun _ =>
    h.ofResult _ fun _ => Heap.kind_of_binary

theorem indexGet (owner key : Value) :
    P p (Eval.indexGet owner key : Eval φ Value) (Eval.indexGet owner key) :=
  h.readHeap (fun heap => Eval.ofResult (heap.indexGet owner key)) _ fun _ =>
    h.ofResult _ fun _ => Heap.kind_of_indexGet

theorem loopValue (retain : Bool) (kept : Array Value) :
    P p (Eval.loopValue retain kept : Eval φ Value) (Eval.loopValue retain kept) := by
  unfold Eval.loopValue
  split
  · exact h.newList p kept
  · exact h.pure p _

theorem boundOf {bound bound' : Eval φ Value} (loc : Location) (inner : P p bound bound') :
    P p (Eval.boundOf loc bound) (Eval.boundOf (f loc) bound') := by
  refine h.bind inner fun limit => ?_
  split
  · exact h.pure p _
  · exact h.locate loc (h.fail p _ rfl)

theorem counterOf (name : String) :
    P p (Eval.counterOf name : Eval φ Float) (Eval.counterOf name) := by
  refine h.bind (h.lookup name) fun value => ?_
  split
  · exact h.pure p _
  · exact h.fail p _ rfl

theorem moveCounter {step step' : Eval φ Value} (name : String) (direction : Direction)
    (loc : Location) (inner : P p step step') :
    P p (Eval.moveCounter name direction loc step)
      (Eval.moveCounter name direction (f loc) step') := by
  rw [Eval.moveCounter_eq, Eval.moveCounter_eq]
  refine h.bind inner fun delta => ?_
  split
  · exact h.bind (h.lookup name) fun current => h.bind (h.binary _ current delta) fun next =>
      h.assign p name next
  · exact h.locate loc (h.fail p _ rfl)

theorem bindTarget (target : LoopTarget) (item : Value) :
    P p (Eval.bindTarget target item : Eval φ Unit) (Eval.bindTarget (target.mapLoc f) item) := by
  cases target with
  | single name => exact h.assign p name.item item
  | pair first second =>
    rw [LoopTarget.mapLoc, Eval.bindTarget_pair_eq, Eval.bindTarget_pair_eq]
    refine h.bind (h.observe p
      (Machine.visible_heap fun heap => (heap.listItems? item).getD #[])) fun parts => ?_
    dsimp only [Located.mapLoc]
    split
    · exact h.bind (h.assign p _ _) fun _ => h.assign p _ _
    · exact h.locate first.loc (h.fail p _ rfl)

end Steps

namespace Congruence

variable {host host' : Host φ} {f : Location → Location}
  {P : Place → ∀ {α : Type}, Eval φ α → Eval φ α → Prop} (h : Congruence host host' f P) {p : Place}

include h

theorem steps : Steps f P where
  pure := h.pure
  bind := h.bind
  observe := h.observe
  fail p _ fault values := h.fail p fault (FaultKind.ne_of_ofValues values rfl)
  locate := h.locate
  assign := h.assign
  newList := h.newList

/-! ## Loops -/

theorem checkpoint (count : Nat) :
    P p (Eval.checkpoint count : Eval φ Unit) (Eval.checkpoint count) := by
  rw [Eval.checkpoint_eq]
  refine h.bind (h.observe p (Machine.visible_self id)) fun self => ?_
  split
  · exact h.fail p _ (by simp [RuntimeFault.kind])
  · split
    · split
      · exact h.fail p _ (by simp [RuntimeFault.kind])
      · exact h.pure p ()
    · exact h.pure p ()

/-- One iteration and the rest of a loop, if the rests are related whatever was kept so far. -/
theorem iteration {goesOn goesOn' : Eval φ Bool} {body body' : Eval φ Value}
    {advance advance' : Eval φ Unit} (test : P p goesOn goesOn')
    (inner : P p.body body body') (move : P p advance advance') (retain : Bool)
    {fuel fuel' : Nat} (count : Nat)
    (rest : ∀ kept, P p (Eval.repeatWhile goesOn body advance retain fuel (count + 1) kept)
      (Eval.repeatWhile goesOn' body' advance' retain fuel' (count + 1) kept))
    (kept : Array Value) :
    P p (Eval.repeatWhile goesOn body advance retain (fuel + 1) count kept)
      (Eval.repeatWhile goesOn' body' advance' retain (fuel' + 1) count kept) := by
  refine h.bind test fun goes => ?_
  cases goes with
  | false => exact h.pure p kept
  | true =>
    refine h.bind (h.checkpoint count) fun _ => h.bind (h.pass inner) fun ended => ?_
    cases ended with
    | leave => exact h.pure p kept
    | next => exact h.bind move fun _ => rest _
    | value v => exact h.bind move fun _ => rest _

theorem repeatWhile {goesOn goesOn' : Eval φ Bool} {body body' : Eval φ Value}
    {advance advance' : Eval φ Unit} (test : P p goesOn goesOn')
    (inner : P p.body body body') (move : P p advance advance') (retain : Bool) (fuel : Nat) :
    ∀ count kept, P p (Eval.repeatWhile goesOn body advance retain fuel count kept)
      (Eval.repeatWhile goesOn' body' advance' retain fuel count kept) := by
  induction fuel with
  | zero => exact fun _ _ => h.unfinished p
  | succ fuel ih =>
    intro count kept
    exact h.iteration test inner move retain count (ih (count + 1)) kept

theorem forEach {bind bind' : Value → Eval φ Unit} {body body' : Eval φ Value}
    (binding : ∀ v, P p (bind v) (bind' v)) (inner : P p.body body body') (retain : Bool)
    (items : List Value) :
    ∀ count kept, P p (Eval.forEach bind body retain items count kept)
      (Eval.forEach bind' body' retain items count kept) := by
  induction items with
  | nil => exact fun _ kept => h.pure p kept
  | cons item items ih =>
    intro count kept
    refine h.bind (h.checkpoint count) fun _ => h.bind (binding item) fun _ =>
      h.bind (h.pass inner) fun ended => ?_
    cases ended with
    | leave => exact h.pure p kept
    | next => exact ih _ _
    | value v => exact ih _ _

end Congruence

/-! ## Trees -/

namespace LoopCongruence

variable {host host' : Host φ} {f : Location → Location}
  {P : Place → ∀ {α : Type}, Eval φ α → Eval φ α → Prop} {budget budget' : Nat}
  (h : LoopCongruence host host' f P budget budget') {p : Place}

include h

mutual

/-- Evaluating a sound tree is related to evaluating it with other locations, under another host
and with another number of iterations. -/
theorem eval : ∀ {p : Place} (n : Node), n.Sound p →
    P p (n.eval host budget) ((n.mapLoc f).eval host' budget')
  | p, .constant _ value, _ => by
    simp only [Node.mapLoc, Node.eval]
    exact h.locate _ (h.pure p _)
  | p, .name _ s, _ => by
    simp only [Node.mapLoc, Node.eval]
    exact h.locate _ (h.steps.lookup s)
  | p, .block _ body, sound => by
    simp only [Node.mapLoc, Node.eval]
    exact h.locate _ (h.withScope _ (evalBody _ body sound))
  | p, .statement _ value, sound => by
    simp only [Node.mapLoc, Node.eval]
    exact h.locate _ (eval value sound)
  | p, .assign _ target value, ⟨assignable, soundTarget, sound⟩ => by
    cases target with
    | name _ s =>
      simp only [Node.mapLoc, Node.eval]
      exact h.locate _ (h.bind (eval value sound) fun v => h.bind (h.assign p s v) fun _ =>
        h.pure p v)
    | index loc owner key =>
      simp only [Node.mapLoc, Node.eval]
      exact h.locate _ (h.bind (eval value sound) fun v =>
        h.bind (eval owner soundTarget.1) fun o => h.bind (eval key soundTarget.2) fun k =>
          h.bind (h.locate loc (h.indexSet p o k v)) fun _ => h.pure p v)
    | _ =>
      obtain rfl : p = .anywhere := assignable.resolve_left (by simp [Grammar.isTarget])
      rw [Node.mapLoc, Node.eval_assign_bad host budget rfl,
        Node.eval_assign_bad host' budget' (by rw [Node.isTarget_mapLoc]; rfl)]
      exact h.locate _ (h.bind (eval value sound) fun _ => h.badTarget)
  | p, .call l callee args, sound => by
    rw [Node.mapLoc, Node.eval_call, Node.eval_call]
    refine h.locate l (h.bind (h.observe p
      (Machine.visible_self fun self => self.functions.get? callee.item)) fun found => ?_)
    cases found with
    | none => exact h.bind (h.unknownCall p callee.item) fun _ => h.pure p _
    | some function => exact h.bind (evalAll args sound) fun values => h.call p function values
  | p, .binary _ left op right, ⟨soundLeft, soundRight⟩ => by
    simp only [Node.mapLoc, Node.eval]
    exact h.locate _ (h.bind (eval left soundLeft) fun a => h.bind (eval right soundRight) fun b =>
      h.steps.binary op a b)
  | p, .unary _ op operand, sound => by
    simp only [Node.mapLoc, Node.eval]
    exact h.locate _ (h.bind (eval operand sound) fun v =>
      h.steps.ofResult _ fun _ => Heap.kind_of_unary)
  | p, .logical _ left op right, ⟨soundLeft, soundRight⟩ => by
    simp only [Node.mapLoc, Node.eval]
    refine h.locate _ (h.bind (eval left soundLeft) fun a => ?_)
    cases op with
    | nullish =>
      dsimp only
      split
      · exact eval right soundRight
      · exact h.pure p a
    | and =>
      dsimp only
      split
      · exact h.bind (eval right soundRight) fun b => h.pure p _
      · exact h.pure p _
    | or =>
      dsimp only
      split
      · exact h.pure p _
      · exact h.bind (eval right soundRight) fun b => h.pure p _
  | p, .conditional _ condition thenBranch none, ⟨soundCondition, soundThen⟩ => by
    simp only [Node.mapLoc, Node.eval]
    refine h.locate _ (h.bind (eval condition soundCondition) fun c => ?_)
    split
    · exact eval thenBranch soundThen
    · exact h.pure p _
  | p, .conditional _ condition thenBranch (some elseBranch),
      ⟨soundCondition, soundThen, soundElse⟩ => by
    simp only [Node.mapLoc, Node.eval]
    refine h.locate _ (h.bind (eval condition soundCondition) fun c => ?_)
    split
    · exact eval thenBranch soundThen
    · exact eval elseBranch soundElse
  | p, .index _ owner key, ⟨soundOwner, soundKey⟩ => by
    simp only [Node.mapLoc, Node.eval]
    exact h.locate _ (h.bind (eval owner soundOwner) fun o => h.bind (eval key soundKey) fun k =>
      h.steps.indexGet o k)
  | p, .object _ properties, sound => by
    simp only [Node.mapLoc, Node.eval]
    exact h.locate _ (h.bind (evalProperties _ properties sound) fun entries => h.newMap p entries)
  | p, .array _ items, sound => by
    simp only [Node.mapLoc, Node.eval]
    exact h.locate _ (h.bind (evalAll items sound) fun values => h.newList p _)
  | p, .whileLoop _ condition body retain, ⟨soundCondition, soundBody⟩ => by
    have test := h.bind (eval condition soundCondition) fun c => h.pure p c.truthy
    simp only [Node.mapLoc, Node.eval]
    exact h.locate _ (h.bind (h.loops test (eval body soundBody) (h.pure p ()) retain) fun kept =>
      h.steps.loopValue retain kept)
  | p, .countLoop _ counter start bound direction step body retain,
      ⟨soundStart, soundBound, soundStep, soundBody⟩ => by
    have test := h.bind (h.steps.boundOf bound.loc (eval bound soundBound)) fun limit =>
      h.bind (h.steps.counterOf counter.item) fun current =>
        h.pure p (Eval.inRange direction limit current)
    have move := h.steps.moveCounter counter.item direction step.loc (eval step soundStep)
    simp only [Node.mapLoc, Node.eval, Node.loc_mapLoc]
    exact h.locate _ (h.withScope _ (h.bind (eval start soundStart) fun first =>
      h.bind (h.assign p _ first) fun _ =>
        h.bind (h.loops test (eval body soundBody) move retain) fun kept =>
          h.steps.loopValue retain kept))
  | p, .eachLoop l target collection body retain, ⟨soundCollection, soundBody⟩ => by
    rw [Node.mapLoc, Node.eval_eachLoop, Node.eval_eachLoop]
    refine h.locate l (h.bind (eval collection soundCollection) fun v => h.bind
      (h.observe p (Machine.visible_heap fun heap => heap.listItems? v)) fun found => ?_)
    cases found with
    | none => exact h.fail p _ (by simp [RuntimeFault.kind])
    | some items =>
      exact h.withScope _ (h.bind (h.forEach (h.steps.bindTarget target) (eval body soundBody)
        retain items.toList 0 #[]) fun kept => h.steps.loopValue retain kept)
  | p, .breakLoop _, sound => by
    simp only [Node.mapLoc, Node.eval]
    exact h.locate _ (h.breakLoop sound)
  | p, .continueLoop _, sound => by
    simp only [Node.mapLoc, Node.eval]
    exact h.locate _ (h.continueLoop sound)
  | p, .returnValue _ none, _ => by
    simp only [Node.mapLoc, Node.eval]
    exact h.locate _ (h.returned p _)
  | p, .returnValue _ (some value), sound => by
    simp only [Node.mapLoc, Node.eval]
    exact h.locate _ (h.bind (eval value sound) fun v => h.returned p v)

theorem evalAll : ∀ {p : Place} (ns : List Node), Node.AllSound p ns →
    P p (Node.evalAll host budget ns) (Node.evalAll host' budget' (Node.mapLocAll f ns))
  | p, [], _ => h.pure p []
  | p, n :: ns, ⟨sound, soundAll⟩ => by
    simp only [Node.mapLocAll, Node.evalAll]
    exact h.bind (eval n sound) fun v => h.bind (evalAll ns soundAll) fun vs => h.pure p _

theorem evalBody : ∀ {p : Place} (last : Value) (ns : List Node), Node.AllSound p ns →
    P p (Node.evalBody host budget last ns) (Node.evalBody host' budget' last (Node.mapLocAll f ns))
  | p, last, [], _ => h.pure p last
  | p, last, n :: ns, ⟨sound, soundAll⟩ => by
    simp only [Node.mapLocAll, Node.evalBody]
    exact h.bind (eval n sound) fun v => evalBody v ns soundAll

theorem evalProperties : ∀ {p : Place} (entries : OrderedMap Value) (ps : List (Node × Node)),
    Node.AllSoundPairs p ps →
    P p (Node.evalProperties host budget entries ps)
      (Node.evalProperties host' budget' entries (Node.mapLocPairs f ps))
  | p, entries, [], _ => h.pure p entries
  | p, entries, (key, value) :: ps, ⟨soundKey, soundValue, soundAll⟩ => by
    simp only [Node.mapLocPairs, Node.evalProperties]
    exact h.bind (eval key soundKey) fun k => h.bind (eval value soundValue) fun v =>
      h.bind (h.steps.display k) fun text => evalProperties _ ps soundAll

end

end LoopCongruence

/-- Evaluating a sound tree is related to evaluating it with other locations under another
host. -/
theorem Congruence.eval {host host' : Host φ} {f : Location → Location}
    {P : Place → ∀ {α : Type}, Eval φ α → Eval φ α → Prop} (h : Congruence host host' f P)
    (budget : Nat) {p : Place} (n : Node) (sound : n.Sound p) :
    P p (n.eval host budget) ((n.mapLoc f).eval host' budget) := by
  have sameBudget : LoopCongruence host host' f P budget budget :=
    { h with
      loops := fun test inner move retain => h.repeatWhile test inner move retain budget 0 #[] }
  exact sameBudget.eval n sound

end Polyglot
