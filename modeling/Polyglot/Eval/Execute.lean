import Polyglot.Eval.Basic

/-!
# Running scripts

Running compiled programs and source texts on an interpreter. Bindings given by the host are
assigned after the script has been compiled, so a script that is rejected changes nothing.
-/

namespace Polyglot

/-- Why running a source text gives no value. -/
inductive Failure
  | compile (e : CompileError)
  | stopped (reason : Stop)
deriving DecidableEq, Inhabited

/-- What running a source text does. -/
abbrev Running (φ : Type) := ExceptT Failure (StateM (Machine φ))

variable {φ : Type} (host : Host φ) (budget : Nat)

/-- The event that ends a run. -/
def endOfRun : Except Stop Value → Event
  | .ok v => .finished v.typeName
  | .error (.failed e) => .failed e.text
  | .error .unfinished => .failed "unfinished"

/-- Runs a compiled program. The scopes are afterwards as they were before. -/
def executeProgram (p : Program) : Action φ Value := do
  modify fun m => m.report (.started p.name p.body.length)
  let depth := (← get).self.scopes.depth
  let result ← (ExceptT.lift (Program.evalStatements host budget .null p.body).run :
    Action φ (Except Stop Value))
  modify fun m => (m.truncate depth).report (endOfRun result)
  match result with
  | .ok v => return v
  | .error reason => throw reason

/-- Compiles a source text in a machine. -/
def compileIn (source : String) (useCache : Bool) (m : Machine φ) :
    Except CompileError Compiled × Machine φ :=
  let (result, world) := m.world.compile source useCache
  (result, { m with world := world })

/-- Compiles and runs a source text, with bindings given by the host. -/
def execute (source : String) (useCache : Bool) (bindings : List (String × Value) := []) :
    Running φ Value := do
  match ← (modifyGet (compileIn source useCache) : Running φ (Except CompileError Compiled)) with
  | .error e => throw (.compile e)
  | .ok compiled =>
    modify fun m => m.assignAll bindings
    match ← (ExceptT.lift (executeProgram host budget compiled.program).run :
        Running φ (Except Stop Value)) with
    | .ok v => return v
    | .error reason => throw (.stopped reason)

/-- Compiles and runs a source text, using the cache as the settings say. -/
def evalSource (source : String) : Running φ Value := do
  execute host budget source (← get).self.config.cache

/-- Does something with another interpreter in the same world. -/
def onInterpreter {α : Type} (other : Interpreter φ) (act : StateM (Machine φ) α)
    (m : Machine φ) : α × Machine φ :=
  let (a, m') := act.run { m with self := other }
  (a, { m with world := m'.world })

/-- Runs a source text on a new interpreter. -/
def runSource (source : String) (useCache : Bool) (w : World φ) :
    Except Failure Value × World φ :=
  let (i, w) := w.newInterpreter
  let (result, m) := (execute host budget source useCache).run.run ⟨w, i⟩
  (result, m.world)

end Polyglot
