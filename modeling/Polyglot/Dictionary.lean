import Polyglot.Keyword
import Polyglot.OrderedMap

/-!
# Keyword dictionaries

A dictionary gives the spellings of the keywords in one human language. Scripts name the
dictionary they are written in by its tag; without a tag, or with an unknown one, English is
meant.
-/

namespace Polyglot

/-- The spellings of keywords in the language `tag`. -/
structure Dictionary where
  tag : String
  words : OrderedMap Keyword := {}
deriving Inhabited

namespace Dictionary

/-- The keyword that `spelling` stands for. -/
def lookup (d : Dictionary) (spelling : String) : Option Keyword :=
  d.words.get? spelling

/-- All spellings. -/
def spellings (d : Dictionary) : List String :=
  d.words.keys

/-- A spelling of `k`, if the dictionary has one. -/
def spelling? (d : Dictionary) (k : Keyword) : Option String :=
  (d.words.entries.find? fun e => e.2 == k).map Prod.fst

/-- A spelling of `k`, or else its English one. -/
def spelling (d : Dictionary) (k : Keyword) : String :=
  (d.spelling? k).getD k.id

open Keyword in
/-- English, in which every keyword is spelled by its name. -/
def english : Dictionary where
  tag := "en"
  words := .ofList (all.map fun k => (k.id, k))

open Keyword in
/-- French. -/
def french : Dictionary where
  tag := "fr"
  words := .ofList
    [("si", ifKw), ("sinon", elseKw), ("vrai", trueKw), ("faux", falseKw), ("nul", nullKw),
     ("tanque", whileKw), ("pour", forKw), ("avec", withKw), ("mont", upKw), ("desc", downKw),
     ("jusqua", tillKw), ("dans", inKw), ("couper", breakKw), ("continuer", continueKw),
     ("returner", returnKw)]

open Keyword in
/-- Bambara. -/
def bambara : Dictionary where
  tag := "bm"
  words := .ofList
    [("nii", ifKw), ("note", elseKw), ("tien", trueKw), ("galon", falseKw), ("gansan", nullKw),
     ("foo", whileKw), ("seginka", forKw), ("niin", withKw), ("kay", upKw), ("kaj", downKw),
     ("kata", tillKw), ("kono", inKw), ("tike", breakKw), ("ipan", continueKw),
     ("segin", returnKw)]

/-- The first entry of a word list whose keyword name is unknown. -/
def unknownEntry? (entries : List (String × String)) : Option (String × String) :=
  entries.find? fun e => (Keyword.ofId? e.2).isNone

/-- The dictionary with the given spellings of keyword names, skipping unknown names. -/
def ofEntries (tag : String) (entries : List (String × String)) : Dictionary where
  tag := tag
  words := .ofList (entries.filterMap fun e => (Keyword.ofId? e.2).map fun k => (e.1, k))

end Dictionary

/-- The dictionaries known to a process, by tag. -/
structure Languages where
  table : OrderedMap Dictionary

namespace Languages

/-- The dictionaries every process starts with. -/
def builtin : Languages where
  table := .ofList [("en", .english), ("fr", .french), ("bm", .bambara)]

instance : Inhabited Languages := ⟨builtin⟩

/-- The dictionary registered under `tag`. -/
def get? (l : Languages) (tag : String) : Option Dictionary :=
  l.table.get? tag

/-- The dictionary of scripts that name none. -/
def standard (l : Languages) : Dictionary :=
  (l.get? "en").getD .english

/-- The dictionary for `tag`, or else the standard one. -/
def resolve (l : Languages) (tag : String) : Dictionary :=
  (l.get? tag).getD l.standard

/-- Adds or replaces the dictionary under its tag. -/
def register (l : Languages) (d : Dictionary) : Languages :=
  ⟨l.table.insert d.tag d⟩

/-- The registered tags in increasing order. -/
def tags (l : Languages) : List String :=
  l.table.sortedKeys

end Languages

end Polyglot
