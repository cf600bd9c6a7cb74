import Polyglot.Eval.Execute

/-!
# Outcomes

An action run on a machine ends with a value or an exit and leaves a machine behind. Here is one
equation for every step out of which evaluation is built; later proofs use these equations and
never look inside the steps.
-/

namespace Polyglot

variable {φ ε α β : Type}

/-- What an action ends with on a machine, and the machine afterwards. -/
def outcome (act : ExceptT ε (StateM (Machine φ)) α) (m : Machine φ) : Except ε α × Machine φ :=
  act.run.run m

@[simp] theorem outcome_pure (a : α) (m : Machine φ) :
    outcome (pure a : ExceptT ε (StateM (Machine φ)) α) m = (.ok a, m) := rfl

@[simp] theorem outcome_throw (e : ε) (m : Machine φ) :
    outcome (throw e : ExceptT ε (StateM (Machine φ)) α) m = (.error e, m) := rfl

theorem outcome_bind (act : ExceptT ε (StateM (Machine φ)) α)
    (next : α → ExceptT ε (StateM (Machine φ)) β) (m : Machine φ) :
    outcome (act >>= next) m =
      match outcome act m with
      | (.ok a, m') => outcome (next a) m'
      | (.error e, m') => (.error e, m') := by
  have run_bind : outcome (act >>= next) m =
      (ExceptT.bindCont next (outcome act m).1).run (outcome act m).2 := rfl
  rw [run_bind]
  rcases outcome act m with ⟨_ | a, m'⟩ <;> rfl

@[simp] theorem outcome_get (m : Machine φ) :
    outcome (get : ExceptT ε (StateM (Machine φ)) (Machine φ)) m = (.ok m, m) := rfl

@[simp] theorem outcome_set (m m' : Machine φ) :
    outcome (set m' : ExceptT ε (StateM (Machine φ)) PUnit) m = (.ok ⟨⟩, m') := rfl

@[simp] theorem outcome_modify (f : Machine φ → Machine φ) (m : Machine φ) :
    outcome (modify f : ExceptT ε (StateM (Machine φ)) PUnit) m = (.ok ⟨⟩, f m) := rfl

@[simp] theorem outcome_modifyGet (f : Machine φ → α × Machine φ) (m : Machine φ) :
    outcome (modifyGet f : ExceptT ε (StateM (Machine φ)) α) m = (.ok (f m).1, (f m).2) := rfl

/-- An action whose exit is taken as a value always ends with a value. -/
@[simp] theorem outcome_lift {δ : Type} (act : ExceptT δ (StateM (Machine φ)) α) (m : Machine φ) :
    outcome (ExceptT.lift act.run : ExceptT ε (StateM (Machine φ)) (Except δ α)) m =
      (.ok (outcome act m).1, (outcome act m).2) := rfl

/-- Locates the failure of an exit that is one. -/
def Exit.located (loc : Location) : Exit → Exit
  | .stopped (.failed e) => .stopped (.failed (e.located loc))
  | exit => exit

/-- How an iteration ended, seen from the loop around its body. -/
def Eval.Pass.ofResult : Except Exit Value → Except Exit Eval.Pass
  | .ok v => .ok (.value v)
  | .error .breakLoop => .ok .leave
  | .error .continueLoop => .ok .next
  | .error exit => .error exit

namespace Eval

@[simp] theorem outcome_fail (fault : RuntimeFault) (m : Machine φ) :
    outcome (fail fault : Eval φ α) m = (.error (.stopped (.failed { fault := fault })), m) := rfl

theorem outcome_ofResult (r : Except RuntimeFault α) (m : Machine φ) :
    outcome (ofResult r : Eval φ α) m =
      (r.mapError fun fault => .stopped (.failed { fault := fault }), m) := by
  cases r <;> rfl

/-- What an action that may be resumed after an exit ends with. -/
theorem outcome_tryCatch (act : Eval φ α) (handler : Exit → Eval φ α) (m : Machine φ) :
    outcome (tryCatch act handler) m =
      match outcome act m with
      | (.ok a, m') => (.ok a, m')
      | (.error exit, m') => outcome (handler exit) m' := by
  unfold outcome ExceptT.run StateT.run
  simp only [tryCatch, tryCatchThe, MonadExceptOf.tryCatch, ExceptT.tryCatch, ExceptT.mk, bind,
    StateT.bind]
  cases act m with
  | mk result m' => cases result <;> rfl

theorem outcome_locate (loc : Location) (act : Eval φ α) (m : Machine φ) :
    outcome (locate loc act) m =
      ((outcome act m).1.mapError (Exit.located loc), (outcome act m).2) := by
  rw [locate, outcome_tryCatch]
  rcases outcome act m with ⟨exit | a, m'⟩
  · rcases exit with _ | _ | _ | (_ | _) <;> rfl
  · rfl

theorem outcome_pass (body : Eval φ Value) (m : Machine φ) :
    outcome (pass body) m = (Pass.ofResult (outcome body m).1, (outcome body m).2) := by
  rw [pass, outcome_tryCatch, map_eq_pure_bind, outcome_bind]
  rcases outcome body m with ⟨exit | a, m'⟩
  · cases exit <;> rfl
  · rfl

theorem outcome_ofAction (act : Action φ α) (m : Machine φ) :
    outcome (ofAction act : Eval φ α) m =
      ((outcome act m).1.mapError Exit.stopped, (outcome act m).2) := by
  rw [ofAction, outcome_bind, outcome_lift]
  rcases outcome act m with ⟨_ | _, _⟩ <;> rfl

theorem outcome_withScope (name : String) (act : Eval φ α) (m : Machine φ) :
    outcome (withScope name act) m =
      ((outcome act (m.pushScope name)).1,
       (outcome act (m.pushScope name)).2.truncate m.self.scopes.depth) := by
  simp only [withScope, outcome_bind, outcome_get, outcome_modify, outcome_lift]
  rcases outcome act (m.pushScope name) with ⟨_ | _, _⟩ <;> rfl

theorem outcome_indexSet (owner key value : Value) (m : Machine φ) :
    outcome (indexSet owner key value) m =
      match m.world.heap.indexSet owner key value with
      | .ok heap => (.ok (), { m with world := { m.world with heap := heap } })
      | .error fault => (.error (.stopped (.failed { fault := fault })), m) := by
  rw [indexSet, outcome_bind, outcome_get]
  simp only [outcome_bind, outcome_ofResult, indexSetIn]
  cases m.world.heap.indexSet owner key value <;> rfl

/-! ## Steps that look first

These steps read something off the machine and then choose between failing and going on. -/

/-- Two actions are the same if they end alike on every machine. -/
theorem ext_outcome {act act' : Eval φ α} (h : ∀ m, outcome act m = outcome act' m) : act = act' :=
  funext h

/-- Reads something off the machine. -/
def observe (g : Machine φ → α) : Eval φ α := do
  return g (← get)

@[simp] theorem outcome_observe (g : Machine φ → α) (m : Machine φ) :
    outcome (observe g : Eval φ α) m = (.ok (g m), m) := rfl

theorem checkpoint_eq (count : Nat) :
    (checkpoint count : Eval φ Unit) = (do
      let self ← observe Machine.self
      if self.cancelled then fail .cancelled
      else match self.config.maxIterations with
        | some limit => if limit ≤ count then fail (.iterationLimit limit) else pure ()
        | none => pure ()) := by
  apply ext_outcome
  intro m
  simp only [checkpoint, outcome_bind, outcome_get, outcome_observe]
  split <;> rfl

/-- The operator by which a counter moves. -/
def moveOp : Direction → BinaryOp
  | .up => .add
  | .down => .sub

theorem moveCounter_eq (name : String) (direction : Direction) (loc : Location)
    (step : Eval φ Value) :
    moveCounter name direction loc step = (do
      let delta ← step
      if delta.isNumber then do
        let current ← lookup name
        let next ← binary (moveOp direction) current delta
        assign name next
      else locate loc (fail (.typeMismatch "numeric loop step" delta.typeName))) := by
  unfold moveCounter
  congr 1
  funext delta
  cases delta.isNumber
  · rfl
  · cases direction <;> rfl

theorem bindTarget_pair_eq (first second : Located String) (item : Value) :
    (bindTarget (.pair first second) item : Eval φ Unit) = (do
      let parts ← observe fun m => (m.world.heap.listItems? item).getD #[]
      match parts[0]?, parts[1]? with
      | some a, some b => do
        assign first.item a
        assign second.item b
      | _, _ => locate first.loc (fail (.notSplittable item.typeName))) := rfl

end Eval

/-! ## Whole programs -/

variable (host : Host φ) (budget : Nat)

/-- Running the next statement decides whether the program goes on. -/
theorem outcome_evalStatements_cons (last : Value) (n : Node) (ns : List Node) (m : Machine φ) :
    outcome (Program.evalStatements host budget last (n :: ns)) m =
      match outcome (n.eval host budget) m with
      | (.ok v, m') => outcome (Program.evalStatements host budget v ns) m'
      | (.error (.returned v), m') => (.ok v, m')
      | (.error (.stopped reason), m') => (.error reason, m')
      | (.error .breakLoop, m') | (.error .continueLoop, m') =>
        (.error (.failed ⟨.internal "loop signal reached the program root", some n.loc⟩), m') := by
  rw [Program.evalStatements, outcome_bind, outcome_lift]
  rcases outcome (n.eval host budget) m with ⟨exit | v, m'⟩
  · cases exit <;> rfl
  · rfl

theorem outcome_executeProgram (p : Program) (m : Machine φ) :
    outcome (executeProgram host budget p) m =
      let ended := outcome (Program.evalStatements host budget .null p.body)
        (m.report (.started p.name p.body.length))
      (ended.1, (ended.2.truncate m.self.scopes.depth).report (endOfRun ended.1)) := by
  simp only [executeProgram, outcome_bind, outcome_get, outcome_modify, outcome_lift]
  rcases outcome (Program.evalStatements host budget .null p.body)
    (m.report (.started p.name p.body.length)) with ⟨_ | _, _⟩ <;> rfl

theorem outcome_execute (source : String) (useCache : Bool) (bindings : List (String × Value))
    (m : Machine φ) :
    outcome (execute host budget source useCache bindings) m =
      match compileIn source useCache m with
      | (.error e, m') => (.error (.compile e), m')
      | (.ok compiled, m') =>
        let ended := outcome (executeProgram host budget compiled.program) (m'.assignAll bindings)
        (ended.1.mapError Failure.stopped, ended.2) := by
  rw [execute, outcome_bind, outcome_modifyGet]
  rcases compileIn source useCache m with ⟨_ | compiled, m'⟩
  · rfl
  · simp only [outcome_bind, outcome_modify, outcome_lift]
    rcases outcome (executeProgram host budget compiled.program) (m'.assignAll bindings) with
      ⟨_ | _, _⟩ <;> rfl

/-! ## A smallest machine -/

/-- A host whose functions give back their first argument. -/
def Host.echo : Host Unit :=
  fun _ args => pure (args.headD .null)

/-- A new interpreter in a new world. -/
def Machine.fresh : Machine Unit :=
  let (self, world) := ({} : World Unit).newInterpreter
  ⟨world, self⟩

end Polyglot
