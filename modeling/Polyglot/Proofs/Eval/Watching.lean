import Polyglot.Proofs.Eval.Congruence

/-!
# Watching a run

A run is watched without being disturbed. What is seen of it are the evaluations of nodes, the calls
of functions of the host and the activations of loops: of each activation, the moments at which its
body was to be evaluated and how often it was. A watched action is an action together with what is
seen of it on every machine; the watched evaluation of a tree is put together just as its
evaluation is, and `Node.act_watch` says that it is that evaluation.
-/

namespace Polyglot

variable {φ α β δ : Type}

/-- One activation of a loop. -/
structure Activation where
  /-- At every moment at which the body was to be evaluated: whether the interpreter was
  cancelled. -/
  attempts : List Bool := []
  /-- How often the body was evaluated. -/
  bodies : Nat := 0
deriving DecidableEq

/-- What is seen of a run. -/
inductive Deed (φ : Type)
  /-- A node was evaluated on a machine, and this is how that ended. -/
  | visit (n : Node) (on : Machine φ) (result : Except Exit Value)
  /-- A loop was activated, and it has ended. -/
  | loop (activation : Activation)
  /-- A function of the host was called. -/
  | call (result : Except Stop Value)

/-- The activation of a loop, if that is what was seen. -/
def Deed.activation? : Deed φ → Option Activation
  | .loop activation => some activation
  | .visit _ _ _ | .call _ => none

/-- What is seen of a loop under way. -/
inductive Mark (φ : Type)
  /-- The body is to be evaluated. -/
  | attempt (cancelled : Bool)
  /-- The body is evaluated. -/
  | body
  /-- Seen of the header or the body, not of the loop itself. -/
  | inner (deed : Deed φ)

/-- An activation of which one more thing is seen. -/
def Activation.add (a : Activation) : Mark φ → Activation
  | .attempt cancelled => { a with attempts := a.attempts ++ [cancelled] }
  | .body => { a with bodies := a.bodies + 1 }
  | .inner _ => a

/-- What was seen of the header or the body. -/
def Mark.deed? : Mark φ → Option (Deed φ)
  | .inner deed => some deed
  | .attempt _ | .body => none

/-- An action and what is seen of it on every machine. -/
structure Watched (δ φ α : Type) where
  act : Eval φ α
  seen : Machine φ → List δ

namespace Watched

/-- An action of which nothing is seen. -/
def quiet (act : Eval φ α) : Watched δ φ α :=
  ⟨act, fun _ => []⟩

/-- What is seen of two actions, the second of which takes place on the machine that the first
leaves, and only if the first ends with a value. -/
instance : Monad (Watched δ φ) where
  pure a := quiet (pure a)
  bind w next :=
    ⟨w.act >>= fun a => (next a).act,
     fun m => w.seen m ++
       match outcome w.act m with
       | (.ok a, m') => (next a).seen m'
       | (.error _, _) => []⟩

/-- Locates the failure of an action. -/
def locate (loc : Location) (w : Watched δ φ α) : Watched δ φ α :=
  ⟨Eval.locate loc w.act, w.seen⟩

/-- Evaluates a node by an action of which the failure is located at the node. -/
def visit (n : Node) (w : Watched (Deed φ) φ Value) : Watched (Deed φ) φ Value :=
  ⟨Eval.locate n.loc w.act, fun m =>
    .visit n m (outcome (Eval.locate n.loc w.act) m).1 :: w.seen m⟩

/-- Runs an action in a new scope. -/
def withScope (name : String) (w : Watched δ φ α) : Watched δ φ α :=
  ⟨Eval.withScope name w.act, fun m => w.seen (m.pushScope name)⟩

/-- Calls a function of the host. -/
def call (act : Action φ Value) : Watched (Deed φ) φ Value :=
  ⟨Eval.ofAction act, fun m => [.call (outcome act m).1]⟩

/-! ## Loops -/

/-- Part of a loop, but not of the loop itself. -/
def inner (w : Watched (Deed φ) φ α) : Watched (Mark φ) φ α :=
  ⟨w.act, fun m => (w.seen m).map .inner⟩

/-- Asks whether the body may be evaluated after `count` iterations. -/
def attempt (count : Nat) : Watched (Mark φ) φ Unit :=
  ⟨Eval.checkpoint count, fun m => [.attempt m.self.cancelled]⟩

/-- Evaluates the body of a loop. -/
def pass (body : Watched (Deed φ) φ Value) : Watched (Mark φ) φ Eval.Pass :=
  ⟨Eval.pass body.act, fun m => .body :: (body.seen m).map .inner⟩

/-- A whole activation of a loop, however it ends. -/
def loop (w : Watched (Mark φ) φ α) : Watched (Deed φ) φ α :=
  ⟨w.act, fun m =>
    .loop ((w.seen m).foldl Activation.add {}) :: (w.seen m).filterMap Mark.deed?⟩

/-- Repeats `body` and then `advance` as long as `goesOn` holds. -/
def repeatWhile (goesOn : Watched (Deed φ) φ Bool) (body : Watched (Deed φ) φ Value)
    (advance : Watched (Deed φ) φ Unit) (retain : Bool) :
    Nat → Nat → Array Value → Watched (Mark φ) φ (Array Value)
  | 0, _, _ => quiet (throw (.stopped .unfinished))
  | fuel + 1, count, kept => do
    if ← inner goesOn then
      attempt count
      match ← pass body with
      | .leave => return kept
      | .next =>
        inner advance
        repeatWhile goesOn body advance retain fuel (count + 1) kept
      | .value v =>
        inner advance
        repeatWhile goesOn body advance retain fuel (count + 1) (Eval.keep retain kept v)
    else return kept

/-- Runs `body` for every item in turn, after binding it. -/
def forEach (bind : Value → Watched (Deed φ) φ Unit) (body : Watched (Deed φ) φ Value)
    (retain : Bool) : List Value → Nat → Array Value → Watched (Mark φ) φ (Array Value)
  | [], _, kept => return kept
  | item :: items, count, kept => do
    attempt count
    inner (bind item)
    match ← pass body with
    | .leave => return kept
    | .next => forEach bind body retain items (count + 1) kept
    | .value v => forEach bind body retain items (count + 1) (Eval.keep retain kept v)

/-! ## The action that is watched -/

@[simp] theorem act_quiet (act : Eval φ α) : (quiet act : Watched δ φ α).act = act := rfl

@[simp] theorem act_pure (a : α) : (pure a : Watched δ φ α).act = pure a := rfl

@[simp] theorem act_bind (w : Watched δ φ α) (next : α → Watched δ φ β) :
    (w >>= next).act = w.act >>= fun a => (next a).act := rfl

@[simp] theorem act_locate (loc : Location) (w : Watched δ φ α) :
    (w.locate loc).act = Eval.locate loc w.act := rfl

@[simp] theorem act_visit (n : Node) (w : Watched (Deed φ) φ Value) :
    (w.visit n).act = Eval.locate n.loc w.act := rfl

@[simp] theorem act_withScope (name : String) (w : Watched δ φ α) :
    (w.withScope name).act = Eval.withScope name w.act := rfl

@[simp] theorem act_call (act : Action φ Value) : (call act).act = Eval.ofAction act := rfl

@[simp] theorem act_inner (w : Watched (Deed φ) φ α) : w.inner.act = w.act := rfl

@[simp] theorem act_attempt (count : Nat) :
    (attempt count : Watched (Mark φ) φ Unit).act = Eval.checkpoint count := rfl

@[simp] theorem act_pass (body : Watched (Deed φ) φ Value) :
    body.pass.act = Eval.pass body.act :=
  rfl

@[simp] theorem act_loop (w : Watched (Mark φ) φ α) : w.loop.act = w.act := rfl

@[simp] theorem act_repeatWhile (goesOn : Watched (Deed φ) φ Bool) (body : Watched (Deed φ) φ Value)
    (advance : Watched (Deed φ) φ Unit) (retain : Bool) (fuel : Nat) : ∀ count kept,
      (repeatWhile goesOn body advance retain fuel count kept).act =
        Eval.repeatWhile goesOn.act body.act advance.act retain fuel count kept := by
  induction fuel with
  | zero => exact fun _ _ => rfl
  | succ fuel ih =>
    intro count kept
    refine bind_congr fun goes => ?_
    cases goes with
    | false => rfl
    | true =>
      refine bind_congr fun _ => bind_congr fun ended => ?_
      cases ended with
      | leave => rfl
      | next => exact bind_congr fun _ => ih _ _
      | value v => exact bind_congr fun _ => ih _ _

@[simp] theorem act_forEach (bind : Value → Watched (Deed φ) φ Unit)
    (body : Watched (Deed φ) φ Value) (retain : Bool) (items : List Value) : ∀ count kept,
      (forEach bind body retain items count kept).act =
        Eval.forEach (fun item => (bind item).act) body.act retain items count kept := by
  induction items with
  | nil => exact fun _ _ => rfl
  | cons item items ih =>
    intro count kept
    refine bind_congr fun _ => bind_congr fun _ => bind_congr fun ended => ?_
    cases ended with
    | leave => rfl
    | next => exact ih _ _
    | value v => exact ih _ _

/-! ## What is seen -/

theorem seen_bind_ok {w : Watched δ φ α} {m m' : Machine φ} {a : α}
    (next : α → Watched δ φ β) (result : outcome w.act m = (.ok a, m')) :
    (w >>= next).seen m = w.seen m ++ (next a).seen m' := by
  simp only [bind, result]

theorem seen_bind_error {w : Watched δ φ α} {m m' : Machine φ} {exit : Exit}
    (next : α → Watched δ φ β) (result : outcome w.act m = (.error exit, m')) :
    (w >>= next).seen m = w.seen m := by
  simp only [bind, result, List.append_nil]

end Watched

/-! ## Trees -/

theorem Eval.boundOf_bind (loc : Location) (bound : Eval φ Value) :
    boundOf loc bound = bound >>= fun v => boundOf loc (pure v) := rfl

theorem Eval.moveCounter_bind (name : String) (direction : Direction) (loc : Location)
    (step : Eval φ Value) :
    moveCounter name direction loc step =
      step >>= fun v => moveCounter name direction loc (pure v) := rfl

namespace Node

open Watched

variable (host : Host φ) (budget : Nat)

mutual

/-- Evaluates a node and watches. -/
def watch (n : Node) : Watched (Deed φ) φ Value :=
  Watched.visit n <| match n with
    | constant _ value => return value.value
    | name _ s => quiet (Eval.lookup s)
    | block _ body => Watched.withScope "block" (watchBody .null body)
    | statement _ value => value.watch
    | assign _ (name _ s) value => do
      let v ← value.watch
      quiet (Eval.assign s v)
      return v
    | assign _ (index loc owner key) value => do
      let v ← value.watch
      let o ← owner.watch
      let k ← key.watch
      quiet (Eval.locate loc (Eval.indexSet o k v))
      return v
    | assign _ _ value => do
      let _ ← value.watch
      quiet (Eval.fail (.internal "invalid assignment target"))
    | call _ callee args => do
      match ← quiet (Eval.observe fun m => m.self.functions.get? callee.item) with
      | none =>
        quiet (modify (reportUnknown callee.item))
        return .null
      | some function =>
        let values ← watchAll args
        Watched.call (host function values)
    | binary _ left op right => do
      let a ← left.watch
      let b ← right.watch
      quiet (Eval.binary op a b)
    | unary _ op operand => do
      let v ← operand.watch
      quiet (Eval.ofResult (Heap.unary op v))
    | logical _ left op right => do
      let a ← left.watch
      match op with
      | .nullish => if a.isNull then right.watch else return a
      | .and => if a.truthy then return .bool (← right.watch).truthy else return .bool false
      | .or => if a.truthy then return .bool true else return .bool (← right.watch).truthy
    | conditional _ condition thenBranch none => do
      if (← condition.watch).truthy then thenBranch.watch else return .null
    | conditional _ condition thenBranch (some elseBranch) => do
      if (← condition.watch).truthy then thenBranch.watch else elseBranch.watch
    | index _ owner key => do
      let o ← owner.watch
      let k ← key.watch
      quiet (Eval.indexGet o k)
    | object _ properties => do
      quiet (Eval.newMap (← watchProperties {} properties))
    | array _ items => do
      quiet (Eval.newList (← watchAll items).toArray)
    | whileLoop _ condition body retain => do
      let goesOn : Watched (Deed φ) φ Bool := return (← condition.watch).truthy
      let kept ← Watched.loop
        (Watched.repeatWhile goesOn body.watch (return ()) retain budget 0 #[])
      quiet (Eval.loopValue retain kept)
    | countLoop _ counter start bound direction step body retain =>
      Watched.withScope "for" do
        quiet (Eval.assign counter.item (← start.watch))
        let goesOn : Watched (Deed φ) φ Bool := do
          let limit ← quiet (Eval.boundOf bound.loc (pure (← bound.watch)))
          return Eval.inRange direction limit (← quiet (Eval.counterOf counter.item))
        let advance : Watched (Deed φ) φ Unit := do
          quiet (Eval.moveCounter counter.item direction step.loc (pure (← step.watch)))
        let kept ← Watched.loop
          (Watched.repeatWhile goesOn body.watch advance retain budget 0 #[])
        quiet (Eval.loopValue retain kept)
    | eachLoop _ target collection body retain => do
      let v ← collection.watch
      match ← quiet (Eval.observe fun m => m.world.heap.listItems? v) with
      | none => quiet (Eval.fail (.notIterable v.typeName))
      | some items =>
        Watched.withScope "for-of" do
          let bind (item : Value) : Watched (Deed φ) φ Unit := quiet (Eval.bindTarget target item)
          let kept ← Watched.loop
            (Watched.forEach bind body.watch retain items.toList 0 #[])
          quiet (Eval.loopValue retain kept)
    | breakLoop _ => quiet (throw .breakLoop)
    | continueLoop _ => quiet (throw .continueLoop)
    | returnValue _ none => quiet (throw (.returned .null))
    | returnValue _ (some value) => do
      let v ← value.watch
      quiet (throw (.returned v))

/-- Evaluates nodes in turn and watches. -/
def watchAll : List Node → Watched (Deed φ) φ (List Value)
  | [] => return []
  | n :: ns => do
    let v ← n.watch
    return v :: (← watchAll ns)

/-- Evaluates statements in turn and watches. -/
def watchBody (last : Value) : List Node → Watched (Deed φ) φ Value
  | [] => return last
  | n :: ns => do
    let v ← n.watch
    watchBody v ns

/-- Evaluates keys and values in turn and watches. -/
def watchProperties (entries : OrderedMap Value) :
    List (Node × Node) → Watched (Deed φ) φ (OrderedMap Value)
  | [] => return entries
  | (key, value) :: ps => do
    let k ← key.watch
    let v ← value.watch
    watchProperties (entries.insert (← quiet (Eval.display k)) v) ps

end

mutual

/-- Watching the evaluation of a node changes nothing about it. -/
@[simp] theorem act_watch : ∀ n : Node, (n.watch host budget).act = n.eval host budget
  | constant _ _ | name _ _ | breakLoop _ | continueLoop _ | returnValue _ none => by
    simp only [watch, eval]
    rfl
  | block _ body => by
    simp only [watch, eval, act_visit, act_withScope, act_watchBody _ body]
  | statement _ value => by simp only [watch, eval, act_visit, act_watch value]
  | assign _ target value => by
    cases target with
    | name _ s =>
      simp only [watch, eval, act_visit, act_bind, act_quiet, act_pure, act_watch value]
    | index _ owner key =>
      simp only [watch, eval, act_visit, act_bind, act_quiet, act_pure, act_watch value,
        act_watch owner, act_watch key]
    | _ => simp only [watch, eval, act_visit, act_bind, act_quiet, act_watch value]
  | call _ callee args => by
    rw [eval_call]
    simp only [watch, act_visit, act_bind, act_quiet]
    congr 1
    refine bind_congr fun found => ?_
    cases found with
    | none => rfl
    | some function => simp only [act_bind, act_call, act_watchAll args]
  | binary _ left _ right => by
    simp only [watch, eval, act_visit, act_bind, act_quiet, act_watch left, act_watch right]
  | unary _ _ operand => by
    simp only [watch, eval, act_visit, act_bind, act_quiet, act_watch operand]
  | logical _ left op right => by
    simp only [watch, eval, act_visit, act_bind, act_watch left]
    congr 1
    refine bind_congr fun a => ?_
    cases op with
    | nullish =>
      dsimp only
      split
      · exact act_watch right
      · rfl
    | and =>
      dsimp only
      split
      · simp only [act_bind, act_pure, act_watch right]
      · rfl
    | or =>
      dsimp only
      split
      · rfl
      · simp only [act_bind, act_pure, act_watch right]
  | conditional _ condition thenBranch none => by
    simp only [watch, eval, act_visit, act_bind, act_watch condition]
    congr 1
    refine bind_congr fun c => ?_
    split
    · exact act_watch thenBranch
    · rfl
  | conditional _ condition thenBranch (some elseBranch) => by
    simp only [watch, eval, act_visit, act_bind, act_watch condition]
    congr 1
    refine bind_congr fun c => ?_
    split
    · exact act_watch thenBranch
    · exact act_watch elseBranch
  | index _ owner key => by
    simp only [watch, eval, act_visit, act_bind, act_quiet, act_watch owner, act_watch key]
  | object _ properties => by
    simp only [watch, eval, act_visit, act_bind, act_quiet, act_watchProperties _ properties]
  | array _ items => by
    simp only [watch, eval, act_visit, act_bind, act_quiet, act_watchAll items]
  | whileLoop _ condition body _ => by
    simp only [watch, eval, act_visit, act_bind, act_quiet, act_pure, act_loop, act_repeatWhile,
      act_watch condition, act_watch body]
  | countLoop _ _ start bound _ step body _ => by
    simp only [watch, eval, act_visit, act_withScope, act_bind, act_quiet, act_pure, act_loop,
      act_repeatWhile, act_watch start, act_watch bound, act_watch step, act_watch body]
    rw [Eval.boundOf_bind _ (bound.eval host budget),
      Eval.moveCounter_bind _ _ _ (step.eval host budget)]
    simp only [bind_assoc]
  | eachLoop _ _ collection body _ => by
    rw [eval_eachLoop]
    simp only [watch, act_visit, act_bind, act_quiet, act_watch collection]
    congr 1
    refine bind_congr fun v => bind_congr fun found => ?_
    cases found with
    | none => rfl
    | some items =>
      simp only [act_withScope, act_bind, act_quiet, act_loop, act_forEach, act_watch body]
  | returnValue _ (some value) => by
    simp only [watch, eval, act_visit, act_bind, act_quiet, act_watch value]

theorem act_watchAll : ∀ ns : List Node, (watchAll host budget ns).act = evalAll host budget ns
  | [] => rfl
  | n :: ns => by
    simp only [watchAll, evalAll, act_bind, act_pure, act_watch n, act_watchAll ns]

theorem act_watchBody : ∀ (last : Value) (ns : List Node),
    (watchBody host budget last ns).act = evalBody host budget last ns
  | _, [] => rfl
  | _, n :: ns => by
    simp only [watchBody, evalBody, act_bind, act_watch n, act_watchBody _ ns]

theorem act_watchProperties : ∀ (entries : OrderedMap Value) (ps : List (Node × Node)),
    (watchProperties host budget entries ps).act = evalProperties host budget entries ps
  | _, [] => rfl
  | _, (key, value) :: ps => by
    simp only [watchProperties, evalProperties, act_bind, act_quiet, act_watch key,
      act_watch value, act_watchProperties _ ps]

end

end Node

/-! ## Programs -/

namespace Program

variable (host : Host φ) (budget : Nat)

/-- What is seen of a list of statements: of each what is seen of it on the machine that those
before it leave, up to the first that does not end with a value. -/
def seenStatements : List Node → Machine φ → List (Deed φ)
  | [], _ => []
  | n :: ns, m =>
    (n.watch host budget).seen m ++
      match outcome (n.eval host budget) m with
      | (.ok _, m') => seenStatements ns m'
      | (.error _, _) => []

/-- What is seen of running a program. -/
def seen (p : Program) (m : Machine φ) : List (Deed φ) :=
  seenStatements host budget p.body (m.report (.started p.name p.body.length))

end Program

end Polyglot
