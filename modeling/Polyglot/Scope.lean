import Polyglot.Value.Basic

/-!
# Scopes

A scope is a named table of bindings. Tables live in a store and are shared by number, so that
several stacks may stand on one root scope. A stack always has a root; names are looked up from
the innermost scope outwards, and an assignment writes the innermost scope that binds the name,
or the current one if none does.
-/

namespace Polyglot

/-- A named table of bindings. -/
structure Scope where
  name : String
  bindings : OrderedMap Value := {}
deriving Inhabited

/-- The scopes of a process. -/
structure ScopeStore where
  tables : Array Scope := #[]
deriving Inhabited

namespace ScopeStore

/-- The scope with the given number. -/
def scope (s : ScopeStore) (id : Nat) : Scope :=
  s.tables.getD id { name := "" }

/-- The bindings of a scope. -/
def bindings (s : ScopeStore) (id : Nat) : OrderedMap Value :=
  (s.scope id).bindings

/-- A new empty scope. -/
def new (s : ScopeStore) (name : String) : Nat × ScopeStore :=
  (s.tables.size, ⟨s.tables.push { name := name }⟩)

/-- Changes the bindings of a scope. -/
def modify (s : ScopeStore) (id : Nat) (f : OrderedMap Value → OrderedMap Value) : ScopeStore :=
  ⟨s.tables.modify id fun scope => { scope with bindings := f scope.bindings }⟩

/-- The value of a name in one scope. -/
def get? (s : ScopeStore) (id : Nat) (name : String) : Option Value :=
  (s.bindings id).get? name

/-- Binds a name in one scope. -/
def set (s : ScopeStore) (id : Nat) (name : String) (value : Value) : ScopeStore :=
  s.modify id fun bindings => bindings.insert name value

/-- Overwrites a name in one scope if it is bound there; says whether it was. -/
def replace (s : ScopeStore) (id : Nat) (name : String) (value : Value) : Bool × ScopeStore :=
  if (s.bindings id).contains name then (true, s.set id name value) else (false, s)

/-- Overwrites a name in the first of some scopes where it is bound; says whether it was in any. -/
def replaceFirst (s : ScopeStore) (name : String) (value : Value) : List Nat → Bool × ScopeStore
  | [] => (false, s)
  | id :: ids =>
    match s.replace id name value with
    | (true, s) => (true, s)
    | (false, s) => s.replaceFirst name value ids

/-- Binds every name of a list in one scope, from the left. -/
def setAll (s : ScopeStore) (id : Nat) (entries : List (String × Value)) : ScopeStore :=
  s.modify id fun bindings => bindings.insertAll entries

/-- Removes a name from one scope. -/
def erase (s : ScopeStore) (id : Nat) (name : String) : ScopeStore :=
  s.modify id fun bindings => bindings.erase name

/-- Removes every name from one scope. -/
def clear (s : ScopeStore) (id : Nat) : ScopeStore :=
  s.modify id fun _ => {}

end ScopeStore

/-- A stack of scopes on a root, the innermost first. -/
structure ScopeStack where
  root : Nat
  inner : List Nat := []
deriving DecidableEq, Inhabited

namespace ScopeStack

/-- The scopes from the innermost to the root. -/
def chain (k : ScopeStack) : List Nat :=
  k.inner ++ [k.root]

/-- A stack is never empty, as it has a root. -/
theorem chain_ne_nil (k : ScopeStack) : k.chain ≠ [] :=
  List.append_ne_nil_of_right_ne_nil _ (List.cons_ne_nil _ _)

/-- The number of scopes. -/
def depth (k : ScopeStack) : Nat :=
  k.inner.length + 1

/-- The innermost scope. -/
def current (k : ScopeStack) : Nat :=
  k.inner.headD k.root

/-- A new scope on top of the stack. -/
def push (k : ScopeStack) (s : ScopeStore) (name : String) : ScopeStack × ScopeStore :=
  let (id, s) := s.new name
  ({ k with inner := id :: k.inner }, s)

/-- Drops scopes until at most `depth` are left; the root always stays. -/
def truncate (k : ScopeStack) (depth : Nat) : ScopeStack :=
  { k with inner := k.inner.drop (k.inner.length - (depth - 1)) }

/-- The value of a name along the stack. -/
def get? (k : ScopeStack) (s : ScopeStore) (name : String) : Option Value :=
  k.chain.findSome? fun id => s.get? id name

/-- Binds a name in the innermost scope. -/
def define (k : ScopeStack) (s : ScopeStore) (name : String) (value : Value) : ScopeStore :=
  s.set k.current name value

/-- Assigns to a name: overwrites it in the innermost scope where it is bound, or else binds it in
the innermost one. -/
def assign (k : ScopeStack) (s : ScopeStore) (name : String) (value : Value) : ScopeStore :=
  match s.replaceFirst name value k.chain with
  | (true, s) => s
  | (false, s) => k.define s name value

/-- The scope that an assignment to a name writes. -/
def owner (k : ScopeStack) (s : ScopeStore) (name : String) : Nat :=
  (k.chain.find? fun id => (s.bindings id).contains name).getD k.current

theorem replaceFirst_eq (s : ScopeStore) (name : String) (value : Value) (ids : List Nat) :
    s.replaceFirst name value ids =
      match ids.find? fun id => (s.bindings id).contains name with
      | some id => (true, s.set id name value)
      | none => (false, s) := by
  induction ids with
  | nil => rfl
  | cons id ids ih =>
    cases bound : (s.bindings id).contains name with
    | false => simp [ScopeStore.replaceFirst, ScopeStore.replace, bound, ih]
    | true => simp [ScopeStore.replaceFirst, ScopeStore.replace, bound]

theorem assign_eq (k : ScopeStack) (s : ScopeStore) (name : String) (value : Value) :
    k.assign s name value = s.set (k.owner s name) name value := by
  rw [assign, replaceFirst_eq, owner]
  cases k.chain.find? fun id => (s.bindings id).contains name <;> rfl

/-- Assigns to every name of a list, from the left. -/
def assignAll (k : ScopeStack) (s : ScopeStore) (entries : List (String × Value)) : ScopeStore :=
  entries.foldl (fun s (name, value) => k.assign s name value) s

end ScopeStack

end Polyglot
