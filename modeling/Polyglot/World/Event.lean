import Polyglot.Text.Quoted

/-!
# Events

What a process tells about its work: compiling, scopes, running scripts and registrations. A
log keeps the events that are at least as important as it asks for.
-/

namespace Polyglot

/-- How important an event is. -/
inductive Level
  | trace
  | debug
  | info
deriving DecidableEq, Inhabited

/-- Levels in increasing importance. -/
def Level.rank : Level → Nat
  | trace => 0
  | debug => 1
  | info => 2

/-- Something that happened. -/
inductive Event
  | directive (tag language : String)
  | parsed (name : String) (statements : Nat) (language : String)
  | cacheHit (bytes : Nat)
  | cacheMiss (bytes : Nat)
  | dictionaryRegistered (language : String) (words : Nat)
  | scopePushed (scope : String) (depth : Nat)
  | scopesTruncated (depth : Nat)
  | started (program : String) (statements : Nat)
  | finished (result : String)
  | failed (error : String)
  | functionRegistered (function : String)
  | functionUnregistered (function : String)
  | globalRegistered (function : String)
  | globalUnregistered (function : String)
  | unknownCall (function : String) (suggestion : Option String)
deriving DecidableEq, Inhabited

namespace Event

/-- What an event says. -/
def message : Event → String
  | directive _ _ => "language directive"
  | parsed _ _ _ => "parsed"
  | cacheHit _ => "compile cache hit"
  | cacheMiss _ => "compile cache miss"
  | dictionaryRegistered _ _ => "registered keyword dictionary"
  | scopePushed _ _ => "push scope"
  | scopesTruncated _ => "truncate scopes"
  | started _ _ => "execute"
  | finished _ => "execute finished"
  | failed _ => "execute failed"
  | functionRegistered _ => "register function"
  | functionUnregistered _ => "unregister function"
  | globalRegistered _ => "register global function"
  | globalUnregistered _ => "unregister global function"
  | unknownCall _ _ => "call to unregistered function"

/-- The text of an optional name. -/
def optionText : Option String → String
  | some s => "Some(" ++ Text.quoted s ++ ")"
  | none => "None"

/-- The particulars of an event, by name. -/
def fields : Event → List (String × String)
  | directive tag language => [("tag", tag), ("language", language)]
  | parsed name statements language =>
    [("name", name), ("statements", toString statements), ("language", language)]
  | cacheHit bytes | cacheMiss bytes => [("bytes", toString bytes)]
  | dictionaryRegistered language words => [("language", language), ("words", toString words)]
  | scopePushed scope depth => [("scope", scope), ("depth", toString depth)]
  | scopesTruncated depth => [("depth", toString depth)]
  | started program statements =>
    [("program", program), ("statements", toString statements)]
  | finished result => [("result", result)]
  | failed error => [("error", error)]
  | functionRegistered function | functionUnregistered function | globalRegistered function
  | globalUnregistered function => [("function", function)]
  | unknownCall function suggestion =>
    [("function", function), ("suggestion", optionText suggestion)]

end Event

/-- The events kept, the latest first. -/
structure Log where
  /-- The least important level that is kept, if any is. -/
  keep : Option Level := none
  entries : List (Level × Event) := []
deriving Inhabited

/-- Adds an event if its level is kept. -/
def Log.add (log : Log) (level : Level) (event : Event) : Log :=
  match log.keep with
  | some least =>
    if least.rank ≤ level.rank then { log with entries := (level, event) :: log.entries } else log
  | none => log

end Polyglot
