import Polyglot.Config
import Polyglot.Toml.Reader

/-!
# Settings from TOML

Settings that are missing take their defaults and unknown ones are ignored; a setting of
another type than its own makes the settings malformed.
-/

namespace Polyglot.Config

/-- A boolean setting. -/
def flag? (default : Bool) : Option Toml → Option Bool
  | none => some default
  | some (.bool b) => some b
  | some _ => none

/-- A setting that is a natural number. -/
def limit? : Option Toml → Option (Option Nat)
  | none => some none
  | some (.int n) => if 0 ≤ n then some (some n.toNat) else none
  | some _ => none

/-- The spellings of a language. -/
def words? (t : Toml) : Option (List (String × String)) := do
  let entries ← t.entries?
  let words ← entries.mapM fun
    | (spelling, .text id) => some (spelling, id)
    | _ => none
  return OrderedMap.sortEntries words

/-- The languages of the settings. -/
def languages? : Option Toml → Option (List (String × List (String × String)))
  | none => some []
  | some t => do
    let entries ← t.entries?
    let languages ← entries.mapM fun e => do return (e.1, ← words? e.2)
    return OrderedMap.sortEntries languages

/-- The settings in a root table. -/
def ofEntries? (entries : Toml.Entries) : Option Config := do
  let get (name : String) := OrderedMap.find? name entries
  return {
    cache := ← flag? true (get "cache")
    debug := ← flag? false (get "debug")
    maxIterations := ← limit? (get "max_iterations")
    languages := ← languages? (get "languages") }

/-- Reads settings from a TOML text. -/
def ofToml (s : String) : Except ConfigError Config :=
  match (Toml.read? s).bind ofEntries? with
  | some config => .ok config
  | none => .error .malformed

end Polyglot.Config
