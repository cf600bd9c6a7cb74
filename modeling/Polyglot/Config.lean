import Polyglot.OrderedMap

/-!
# Configuration

The settings of an interpreter, and why settings are rejected.
-/

namespace Polyglot

/-- The settings of an interpreter. -/
structure Config where
  /-- Evaluation of a source text goes through the compile cache. -/
  cache : Bool := true
  /-- Events of running scripts are informative rather than for debugging. -/
  debug : Bool := false
  /-- The most iterations that a single loop may make: a number of 64 bits wherever it is given. -/
  maxIterations : Option Nat := none
  /-- Further dictionaries: tags with spellings of keyword names, both in increasing order. -/
  languages : List (String × List (String × String)) := []
deriving DecidableEq, Inhabited

/-- Why settings are rejected. -/
inductive ConfigError
  /-- A dictionary gives a spelling to a keyword that does not exist. -/
  | unknownKeyword (language spelling id : String)
  /-- The settings are not well-formed. -/
  | malformed
  /-- The settings could not be read. -/
  | unreadable (path reason : String)
deriving DecidableEq, Inhabited

/-- The wording of an error. -/
def ConfigError.message : ConfigError → String
  | unknownKeyword language spelling id =>
    "language `" ++ language ++ "`: `" ++ spelling ++ "` maps to unknown keyword `" ++ id ++ "`"
  | malformed => "invalid config"
  | unreadable path reason => "failed to read config from " ++ path ++ ": " ++ reason

end Polyglot
