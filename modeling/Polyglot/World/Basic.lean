import Polyglot.Config
import Polyglot.Program.Grammar
import Polyglot.Scope
import Polyglot.World.Event

/-!
# The world of a process

What all interpreters of a process share: containers, scopes, the languages and functions known
to every interpreter, compiled programs by their source text, and the log. Functions of the
host are known by handles of some type.
-/

namespace Polyglot

/-- A program as it came out of the compiler; equal numbers mean the very same program. -/
structure Compiled where
  serial : Nat
  program : Program
deriving Inhabited

/-- What the interpreters of a process share. -/
structure World (φ : Type) where
  heap : Heap := {}
  scopes : ScopeStore := {}
  globals : OrderedMap φ := {}
  languages : Languages := .builtin
  cache : OrderedMap Compiled := {}
  /-- The number of programs compiled so far. -/
  compilations : Nat := 0
  log : Log := {}
deriving Inhabited

namespace World

variable {φ : Type}

/-- Logs an event. -/
def emit (w : World φ) (level : Level) (event : Event) : World φ :=
  { w with log := w.log.add level event }

/-! ## Compiling -/

/-- Logs the directive of a reading, if it has one. -/
def emitDirective (w : World φ) (r : Reading) : World φ :=
  match r.directive with
  | some tag => w.emit .trace (.directive tag r.dictionary.tag)
  | none => w

/-- Reads a script under the languages of the world. -/
def parse (w : World φ) (source : String) (name : String := Program.anonymous) :
    Except CompileError Program × World φ :=
  let r := Reading.ofSource w.languages source
  let w := w.emitDirective r
  match Program.ofReading name source r with
  | .error e => (.error e, w)
  | .ok p => (.ok p, w.emit .trace (.parsed name p.body.length r.dictionary.tag))

/-- Compiles a script anew. -/
def compileNew (w : World φ) (source : String) : Except CompileError Compiled × World φ :=
  match w.parse source with
  | (.error e, w) => (.error e, w)
  | (.ok p, w) =>
    (.ok ⟨w.compilations, p⟩, { w with compilations := w.compilations + 1 })

/-- Compiles a script, looking it up in the cache and putting it there if asked to. -/
def compile (w : World φ) (source : String) (useCache : Bool) :
    Except CompileError Compiled × World φ :=
  if useCache then
    match w.cache.get? source with
    | some program => (.ok program, w.emit .debug (.cacheHit source.utf8ByteSize))
    | none =>
      match w.compileNew source with
      | (.error e, w) => (.error e, w)
      | (.ok program, w) =>
        let w := w.emit .debug (.cacheMiss source.utf8ByteSize)
        (.ok program, { w with cache := w.cache.insert source program })
  else w.compileNew source

/-! ## Registrations -/

/-- Adds or replaces a language. Cached programs may have been read otherwise, so the cache is
emptied. -/
def registerLanguage (w : World φ) (tag : String) (entries : List (String × String)) :
    Except ConfigError Unit × World φ :=
  match Dictionary.unknownEntry? entries with
  | some (spelling, id) => (.error (.unknownKeyword tag spelling id), w)
  | none =>
    let d := Dictionary.ofEntries tag entries
    let w := w.emit .debug (.dictionaryRegistered tag d.words.size)
    (.ok (), { w with languages := w.languages.register d, cache := {} })

/-- Adds languages one after the other, up to the first that is rejected. -/
def registerLanguages (w : World φ) :
    List (String × List (String × String)) → Except ConfigError Unit × World φ
  | [] => (.ok (), w)
  | (tag, entries) :: rest =>
    match w.registerLanguage tag entries with
    | (.error e, w) => (.error e, w)
    | (.ok (), w) => registerLanguages w rest

/-- Makes a function known to interpreters created from now on. -/
def registerGlobal (w : World φ) (name : String) (function : φ) : World φ :=
  let w := w.emit .debug (.globalRegistered name)
  { w with globals := w.globals.insert name function }

/-- Takes a function back; says whether there was one. -/
def unregisterGlobal (w : World φ) (name : String) : Bool × World φ :=
  let w := w.emit .debug (.globalUnregistered name)
  (w.globals.contains name, { w with globals := w.globals.erase name })

end World

/-- The text of the names in a table of functions. -/
def functionNames {α : Type} (functions : OrderedMap α) : String :=
  "\x7b" ++ String.intercalate ", " (functions.sortedKeys.map Text.quoted) ++ "\x7d"

end Polyglot
