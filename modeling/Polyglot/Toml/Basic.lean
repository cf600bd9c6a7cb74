import Polyglot.OrderedMap

/-!
# TOML documents

A document is a table of values and tables. Tables remember how they came about, because that
decides who may add to them: a table that was opened by a header cannot be opened again, one
that was made by dotted keys only grows by dotted keys, and an inline table does not grow.
-/

namespace Polyglot

/-- A TOML value. -/
inductive Toml
  | bool (b : Bool)
  | int (n : Int)
  | float (x : Float)
  | text (s : String)
  /-- A date, a time of day or both, in its normal form. -/
  | date (s : String)
  | array (items : List Toml)
  /-- A table written as a value. -/
  | inline (entries : List (String × Toml))
  /-- A table that grew from headers or dotted keys; it is implicit until a header opens it. -/
  | table (implicit dotted : Bool) (entries : List (String × Toml))
  /-- Tables that each were opened by a header of their own, the latest first. -/
  | tables (items : List (List (String × Toml)))
deriving Inhabited

namespace Toml

/-- The entries of a table. -/
abbrev Entries := List (String × Toml)

/-- Changes the table at a path, making the tables on the way. Where there are several tables
the latest is meant. -/
def under (f : Entries → Option Entries) : List String → Entries → Option Entries
  | [], entries => f entries
  | name :: path, entries =>
    match OrderedMap.find? name entries with
    | none =>
      (under f path []).map fun sub => OrderedMap.upsert name (table true false sub) entries
    | some (table implicit dotted sub) =>
      (under f path sub).map fun sub =>
        OrderedMap.upsert name (table implicit dotted sub) entries
    | some (tables (sub :: rest)) =>
      (under f path sub).map fun sub => OrderedMap.upsert name (tables (sub :: rest)) entries
    | some _ => none

/-- Adds a value under a dotted key; the last part of the key must be new. The tables on the way
must be implicit, and the one that gets the value must have come from dotted keys. Where there
are several tables the latest is meant, but it takes no value itself. -/
def define (key : String) (value : Toml) : List String → Entries → Option Entries
  | [], entries =>
    if (OrderedMap.find? key entries).isSome then none
    else some (OrderedMap.upsert key value entries)
  | name :: path, entries =>
    match OrderedMap.find? name entries with
    | none =>
      (define key value path []).map fun sub =>
        OrderedMap.upsert name (table true true sub) entries
    | some (table true dotted sub) =>
      if path.isEmpty && !dotted then none
      else (define key value path sub).map fun sub =>
        OrderedMap.upsert name (table true dotted sub) entries
    | some (tables (sub :: rest)) =>
      if path.isEmpty then none
      else (define key value path sub).map fun sub =>
        OrderedMap.upsert name (tables (sub :: rest)) entries
    | some _ => none

/-- Opens a table by a header. -/
def openTable (name : String) (entries : Entries) : Option Entries :=
  match OrderedMap.find? name entries with
  | none => some (OrderedMap.upsert name (table false false []) entries)
  | some (table true false sub) => some (OrderedMap.upsert name (table false false sub) entries)
  | some _ => none

/-- Opens one more table by a header for several. -/
def openAnother (name : String) (entries : Entries) : Option Entries :=
  match OrderedMap.find? name entries with
  | none => some (OrderedMap.upsert name (tables [[]]) entries)
  | some (tables items) => some (OrderedMap.upsert name (tables ([] :: items)) entries)
  | some _ => none

/-- The name under which a date keeps its text where a table is wanted. -/
def dateName : String := "$__toml_private_datetime"

/-- The entries of a value that is a table. A date can stand for a table of one entry. -/
def entries? : Toml → Option Entries
  | inline entries => some entries
  | table _ _ entries => some entries
  | date s => some [(dateName, text s)]
  | _ => none

end Toml

end Polyglot
