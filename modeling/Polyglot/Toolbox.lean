import Polyglot.Eval.Execute

/-!
# A toolbox of host functions

Functions that a host may lend to its scripts. Some only compute, some change containers or the
scopes, some act on the interpreter that calls them or run further scripts. A missing argument
counts as null, and where a text is needed the text of the value is taken.
-/

namespace Polyglot

/-- A function of the toolbox. -/
inductive Tool
  /-- Always the same value. -/
  | const (value : Value)
  /-- The first argument. -/
  | first
  /-- The number of arguments. -/
  | count
  /-- The texts of the arguments with commas between them. -/
  | join
  /-- A new list of the arguments. -/
  | list
  /-- Fails with the text of the first argument. -/
  | fail
  /-- Fails at a place of its own. -/
  | located
  /-- The type of the first argument. -/
  | typeName
  /-- Appends the second argument to the list that is the first. -/
  | push
  /-- The names of a map. -/
  | keys
  /-- Removes a name from a map. -/
  | remove
  /-- Binds `seen` in the root scope. -/
  | remember
  /-- Assigns to a name. -/
  | set
  /-- The value of a name. -/
  | get
  /-- Runs a script in the scopes of the caller. -/
  | eval
  /-- Runs a script on a new interpreter. -/
  | run
  /-- Runs a script on a fork of the caller. -/
  | forkRun
  /-- Asks the loops of the caller to stop. -/
  | cancel
  /-- Takes that back. -/
  | reset
  /-- Calls a function of the caller by name. -/
  | call
  /-- Takes a function from the caller. -/
  | unregister
  /-- Gives the caller a constant function. -/
  | register
  /-- Counts its calls in the list with this number. -/
  | tick (cell : Nat)
deriving Inhabited

namespace Tool

/-- Functions by their names, those that need something of their own apart. -/
def named : List (String × Tool) :=
  [("first", first), ("count", count), ("join", join), ("list", list), ("fail", fail),
   ("located", located), ("typename", typeName), ("push", push), ("keys", keys),
   ("remove", remove), ("remember", remember), ("set", set), ("get", get), ("eval", eval),
   ("run", run), ("forkrun", forkRun), ("cancel", cancel), ("reset", reset), ("call", call),
   ("unregister", unregister), ("register", register)]

/-- The function with the given name; `param` is the value of a constant one. A new counter is
made for a counting one. -/
def make (name : String) (param : Value) (h : Heap) : Tool × Heap :=
  if name = "const" then (const param, h)
  else if name = "tick" then
    (tick h.lists.size, { h with lists := h.lists.push #[.int 0] })
  else ((OrderedMap.find? name named).getD first, h)

/-- Changes the heap of the machine. -/
def onHeap {α : Type} (f : Heap → α × Heap) : Action Tool α :=
  modifyGet fun m =>
    let (a, heap) := f m.world.heap
    (a, { m with world := { m.world with heap := heap } })

/-- The text of a value. -/
def textOf (v : Value) : Action Tool String :=
  return (← MonadState.get).world.heap.display v

/-- Changes the interpreter of the machine. -/
def onSelf (f : Interpreter Tool → Interpreter Tool) : Action Tool Unit :=
  modify fun m => { m with self := f m.self }

/-- The outcome of a script that was run: a script that is rejected counts as a failure of the
host. -/
def ofRun : Except Failure Value → Action Tool Value
  | .ok v => return v
  | .error (.compile e) => throw (.failed { fault := .host e.text })
  | .error (.stopped reason) => throw reason

/-- The last item of a counter, one higher. -/
def tickOnce (cell : Nat) (h : Heap) : Value × Heap :=
  let next := match (h.items cell).toList with
    | .int n :: _ => n + 1
    | _ => 1
  (.int next, h.modifyList cell fun _ => #[.int next])

/-- Appends to a list; the value is its new length. -/
def pushItem (target item : Value) (h : Heap) : Value × Heap :=
  match target with
  | .list id =>
    let h := h.modifyList id (·.push item)
    (.int (Int64.ofNat (h.items id).size), h)
  | _ => (.null, h)

/-- Removes a name from a map; the value is what stood there. -/
def removeEntry (target : Value) (name : String) (h : Heap) : Value × Heap :=
  match target with
  | .map id => (((h.entries id).get? name).getD .null, h.modifyMap id (·.erase name))
  | _ => (.null, h)

/-- The names of a map as a list. -/
def keysOf (target : Value) (h : Heap) : Value × Heap :=
  match target with
  | .map id => h.newList ((h.entries id).keys.map Value.text).toArray
  | _ => (.null, h)

variable (budget : Nat)

/-- What a function does, where `again` does the same for functions called in turn. -/
def apply (again : Host Tool) (tool : Tool) (args : List Value) : Action Tool Value := do
  let arg (i : Nat) : Value := args[i]?.getD .null
  match tool with
  | const value => return value
  | first => return arg 0
  | count => return .int (Int64.ofNat args.length)
  | join => return .text (String.intercalate "," (← args.mapM textOf))
  | list => onHeap fun h => h.newList args.toArray
  | fail => throw (.failed { fault := .host (← textOf (arg 0)) })
  | located => throw (.failed ⟨.host (← textOf (arg 0)), some ⟨⟨1, 2⟩, ⟨7, 9⟩⟩⟩)
  | typeName => return .text (arg 0).typeName
  | push => onHeap (pushItem (arg 0) (arg 1))
  | keys => onHeap (keysOf (arg 0))
  | remove => do
    let name ← textOf (arg 1)
    onHeap (removeEntry (arg 0) name)
  | remember =>
    modify fun m =>
      { m with world := { m.world with
          scopes := m.world.scopes.set m.self.scopes.root "seen" (arg 0) } }
    return .null
  | set =>
    let name ← textOf (arg 0)
    modify fun m => m.assign name (arg 1)
    return arg 1
  | get =>
    let name ← textOf (arg 0)
    return ((← MonadState.get).get? name).getD .null
  | eval =>
    let source ← textOf (arg 0)
    ofRun (← (ExceptT.lift (evalSource again budget source).run :
      Action Tool (Except Failure Value)))
  | run =>
    let source ← textOf (arg 0)
    ofRun (← (modifyGet fun m =>
      let (result, world) := runSource again budget source false m.world
      (result, { m with world := world }) : Action Tool (Except Failure Value)))
  | forkRun =>
    let source ← textOf (arg 0)
    ofRun (← (modifyGet fun m =>
      let (fork, world) := m.world.fork m.self
      onInterpreter fork (execute again budget source false).run { m with world := world } :
        Action Tool (Except Failure Value)))
  | cancel =>
    onSelf fun self => { self with cancelled := true }
    return .null
  | reset =>
    onSelf fun self => { self with cancelled := false }
    return .null
  | call =>
    let name ← textOf (arg 0)
    match (← MonadState.get).self.functions.get? name with
    | some function => again function (args.drop 1)
    | none => return .text "unresolved"
  | unregister =>
    let name ← textOf (arg 0)
    return .bool (← modifyGet fun m => m.unregister name)
  | register =>
    let name ← textOf (arg 0)
    modify fun m => m.register name (const (arg 1))
    return .null
  | tick cell => onHeap (tickOnce cell)

/-- What a function does, functions calling each other at most `depth` deep. -/
def perform : Nat → Host Tool
  | 0 => fun _ _ => throw .unfinished
  | depth + 1 => fun tool args => apply budget (fun t a => perform depth t a) tool args

end Tool

end Polyglot
