import Polyglot.World.Basic

/-!
# Interpreters

An interpreter has a stack of scopes whose root outlives its scripts, a table of functions that
starts as a copy of the global one, settings, and a flag that asks its loops to stop.
-/

namespace Polyglot

/-- An interpreter. -/
structure Interpreter (φ : Type) where
  scopes : ScopeStack
  functions : OrderedMap φ := {}
  config : Config := {}
  cancelled : Bool := false
deriving Inhabited

/-- The name of root scopes. -/
def rootName : String := "root"

namespace World

variable {φ : Type}

/-- An interpreter on an existing root scope. -/
def interpreterOn (w : World φ) (root : Nat) : Interpreter φ :=
  { scopes := { root := root }, functions := w.globals }

/-- An interpreter with a root scope of its own. -/
def newInterpreter (w : World φ) : Interpreter φ × World φ :=
  let (root, scopes) := w.scopes.new rootName
  (w.interpreterOn root, { w with scopes := scopes })

/-- An interpreter with the given settings, whose languages are registered first. -/
def configuredInterpreter (w : World φ) (config : Config) :
    Except ConfigError (Interpreter φ) × World φ :=
  match w.registerLanguages config.languages with
  | (.error e, w) => (.error e, w)
  | (.ok (), w) =>
    let (i, w) := w.newInterpreter
    (.ok { i with config := config }, w)

/-- The root bindings of an interpreter. -/
def memory (w : World φ) (i : Interpreter φ) : OrderedMap Value :=
  w.scopes.bindings i.scopes.root

/-- Merges the functions and root bindings of `other` into `i`. -/
def copyAttributes (w : World φ) (i other : Interpreter φ) : Interpreter φ × World φ :=
  ({ i with functions := i.functions.union other.functions },
   { w with scopes := w.scopes.setAll i.scopes.root (w.memory other).entries })

/-- A new interpreter with the settings of `i` and copies of its functions and root bindings. -/
def fork (w : World φ) (i : Interpreter φ) : Interpreter φ × World φ :=
  let (j, w) := w.newInterpreter
  w.copyAttributes { j with config := i.config } i

end World

/-- A world with the interpreter that is at work in it. -/
structure Machine (φ : Type) where
  world : World φ
  self : Interpreter φ
deriving Inhabited

namespace Machine

variable {φ : Type}

/-- Logs an event. -/
def emit (m : Machine φ) (level : Level) (event : Event) : Machine φ :=
  { m with world := m.world.emit level event }

/-- Logs an event of the interpreter, at the level its settings ask for. -/
def report (m : Machine φ) (event : Event) : Machine φ :=
  m.emit (if m.self.config.debug then .info else .debug) event

/-- The value of a name along the scopes. -/
def get? (m : Machine φ) (name : String) : Option Value :=
  m.self.scopes.get? m.world.scopes name

/-- Assigns to a name. -/
def assign (m : Machine φ) (name : String) (value : Value) : Machine φ :=
  { m with world := { m.world with scopes := m.self.scopes.assign m.world.scopes name value } }

/-- Assigns to every name of a list, from the left. -/
def assignAll (m : Machine φ) (entries : List (String × Value)) : Machine φ :=
  { m with
    world := { m.world with scopes := m.self.scopes.assignAll m.world.scopes entries } }

/-- A new scope on top of the stack. -/
def pushScope (m : Machine φ) (name : String) : Machine φ :=
  let (scopes, store) := m.self.scopes.push m.world.scopes name
  let m : Machine φ :=
    { world := { m.world with scopes := store }, self := { m.self with scopes := scopes } }
  m.emit .trace (.scopePushed name scopes.depth)

/-- Drops the scopes above the given depth. -/
def truncate (m : Machine φ) (depth : Nat) : Machine φ :=
  let scopes := m.self.scopes.truncate depth
  let m : Machine φ := { m with self := { m.self with scopes := scopes } }
  m.emit .trace (.scopesTruncated scopes.depth)

/-- Registers a function with the interpreter. -/
def register (m : Machine φ) (name : String) (function : φ) : Machine φ :=
  let m := m.report (.functionRegistered name)
  { m with self := { m.self with functions := m.self.functions.insert name function } }

/-- Takes a function back; says whether there was one. -/
def unregister (m : Machine φ) (name : String) : Bool × Machine φ :=
  let m := m.report (.functionUnregistered name)
  (m.self.functions.contains name,
   { m with self := { m.self with functions := m.self.functions.erase name } })

end Machine

end Polyglot
