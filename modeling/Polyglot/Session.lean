import Polyglot.Eval.Execute

/-!
# Sessions

Named interpreters in one world, together with the programs a host keeps for later. A name that
is used before an interpreter was made under it stands for a new one, made at that moment.
-/

namespace Polyglot

/-- Named interpreters and programs in a world. -/
structure Session (φ : Type) where
  world : World φ := {}
  interpreters : OrderedMap (Interpreter φ) := {}
  programs : OrderedMap Compiled := {}
deriving Inhabited

/-- What is done in a session. -/
abbrev SessionM (φ : Type) := StateM (Session φ)

namespace Session

variable {φ α : Type}

/-- Does something with the world. -/
def onWorld (f : World φ → α × World φ) : SessionM φ α :=
  modifyGet fun s =>
    let (a, world) := f s.world
    (a, { s with world := world })

/-- Puts an interpreter under a name, in place of any other. -/
def store (vm : String) (i : Interpreter φ) : SessionM φ Unit :=
  modify fun s => { s with interpreters := s.interpreters.insert vm i }

/-- The interpreter under a name, a new one if there is none. -/
def interpreter (vm : String) : SessionM φ (Interpreter φ) := do
  match (← get).interpreters.get? vm with
  | some i => return i
  | none =>
    let i ← onWorld World.newInterpreter
    store vm i
    return i

/-- Does something with an interpreter at work. -/
def onMachine (vm : String) (act : StateM (Machine φ) α) : SessionM φ α := do
  let i ← interpreter vm
  modifyGet fun s =>
    let (a, m) := act.run ⟨s.world, i⟩
    (a, { s with world := m.world, interpreters := s.interpreters.insert vm m.self })

/-- Makes a new interpreter. -/
def create (vm : String) : SessionM φ Unit := do
  store vm (← onWorld World.newInterpreter)

/-- Makes an interpreter on the root scope of another. -/
def share (vm source : String) : SessionM φ Unit := do
  let other ← interpreter source
  let i := (← get).world.interpreterOn other.scopes.root
  store vm i

/-- Makes a fork of an interpreter. -/
def fork (vm source : String) : SessionM φ Unit := do
  let other ← interpreter source
  store vm (← onWorld fun w => w.fork other)

/-- Makes an interpreter with the given settings. -/
def configure (vm : String) (config : Config) : SessionM φ (Except ConfigError Unit) := do
  match ← onWorld fun w => w.configuredInterpreter config with
  | .ok i =>
    store vm i
    return .ok ()
  | .error e => return .error e

/-- Merges the functions and root bindings of another interpreter into one. -/
def merge (vm source : String) : SessionM φ Unit := do
  let i ← interpreter vm
  let other ← interpreter source
  store vm (← onWorld fun w => w.copyAttributes i other)

/-- The root bindings of an interpreter. -/
def memory (vm : String) : SessionM φ (OrderedMap Value) := do
  let i ← interpreter vm
  return (← get).world.memory i

/-- Assigns to a name along the scopes of an interpreter. -/
def assign (vm name : String) (value : Value) : SessionM φ Unit :=
  onMachine vm (modify fun m => m.assign name value)

/-- Registers a function with an interpreter. -/
def register (vm name : String) (function : φ) : SessionM φ Unit :=
  onMachine vm (modify fun m => m.register name function)

/-- Takes a function from an interpreter. -/
def unregister (vm name : String) : SessionM φ Bool :=
  onMachine vm (modifyGet fun m => m.unregister name)

/-- Registers a function for interpreters to come. -/
def registerGlobal (name : String) (function : φ) : SessionM φ Unit :=
  onWorld fun w => ((), w.registerGlobal name function)

/-- Takes a function from interpreters to come. -/
def unregisterGlobal (name : String) : SessionM φ Bool :=
  onWorld fun w => w.unregisterGlobal name

/-- Sets or clears the flag that stops loops. -/
def setCancelled (vm : String) (cancelled : Bool) : SessionM φ Unit :=
  onMachine vm (modify fun m => { m with self := { m.self with cancelled := cancelled } })

/-- The names of the programs that are the very same as the given one. -/
def sameAs (compiled : Compiled) : SessionM φ (List String) := do
  let same := (← get).programs.entries.filter fun e => e.2.serial == compiled.serial
  return (same.map Prod.fst).mergeSort (· ≤ ·)

/-- Compiles a source text and keeps the program under a name. Also gives the names under which
the very same program was kept before. -/
def compile (name source : String) (useCache : Bool) :
    SessionM φ (Except CompileError (Compiled × List String)) := do
  match ← onWorld fun w => w.compile source useCache with
  | .ok compiled =>
    let same ← sameAs compiled
    modify fun s => { s with programs := s.programs.insert name compiled }
    return .ok (compiled, same)
  | .error e => return .error e

/-- Puts the program of one source text into the cache under another. -/
def cacheAs (source programSource : String) : SessionM φ (Except CompileError Unit) :=
  onWorld fun w =>
    match w.compileNew programSource with
    | (.error e, w) => (.error e, w)
    | (.ok compiled, w) => (.ok (), { w with cache := w.cache.insert source compiled })

/-- Empties the cache. -/
def clearCache : SessionM φ Unit :=
  onWorld fun w => ((), { w with cache := {} })

variable (host : Host φ) (budget : Nat)

/-- Compiles and runs a source text on an interpreter. -/
def execute (vm source : String) (useCache : Bool) (bindings : List (String × Value) := []) :
    SessionM φ (Except Failure Value) :=
  onMachine vm (Polyglot.execute host budget source useCache bindings).run

/-- Compiles and runs a source text on an interpreter, using the cache as its settings say. -/
def eval (vm source : String) : SessionM φ (Except Failure Value) :=
  onMachine vm (evalSource host budget source).run

/-- Compiles and runs a source text on a new interpreter that is not kept. -/
def run (source : String) (useCache : Bool) : SessionM φ (Except Failure Value) :=
  onWorld (runSource host budget source useCache)

/-- Runs a program on an interpreter. -/
def executeProgram (vm : String) (p : Program) : SessionM φ (Except Stop Value) :=
  onMachine vm (Polyglot.executeProgram host budget p).run

end Session

end Polyglot
