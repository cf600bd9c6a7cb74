import Polyglot.Proofs.Program.Relocation

/-!
# Well-formed trees

Which trees a script can be the text of, told from the tree alone: what may stand in a body, in a
branch and in an expression, which names and numbers can be written, what can be assigned to, and
where a loop may be left. Locations play no part.
-/

namespace Polyglot

/-- A word of letters, digits, underscores and dollar signs that does not begin with a digit. -/
def isIdentifier (s : String) : Bool :=
  match s.toList with
  | [] => false
  | c :: cs =>
    (c.isAlpha || c == '_' || c == '$') && cs.all fun d => d.isAlphanum || d == '_' || d == '$'

/-- A word that can be written as a name: an identifier that no keyword is spelled by. -/
def IsName (s : String) : Prop :=
  isIdentifier s = true ∧ ∀ k : Keyword, s ≠ k.id

/-- The value of some decimal literal, which has digits before and after its point. -/
def IsDecimal (x : Float) : Prop :=
  ∃ whole fraction : List Char, whole ≠ [] ∧ fraction ≠ [] ∧ whole.all Char.isDigit = true ∧
    fraction.all Char.isDigit = true ∧ x = Decimal.ofDigits false whole fraction 0

/-- A constant that a literal can stand for; there are no negative ones. -/
def Constant.IsLiteral : Constant → Prop
  | null | bool _ | text _ => True
  | int n => 0 ≤ n
  | float x => IsDecimal x

/-- The names of a loop over elements can be written. -/
def LoopTarget.IsNamed : LoopTarget → Prop
  | single name => IsName name.item
  | pair first second => IsName first.item ∧ IsName second.item

/-- Where in a program a node stands. -/
inductive Role
  /-- In the body of the program or of a block. -/
  | statement
  /-- A branch of a conditional or the body of a loop. -/
  | branch
  /-- Everywhere else. -/
  | expression
deriving DecidableEq

namespace Node

mutual

/-- The tree can be written where it stands, inside the body of a loop or not. The header of a
loop is not part of its body. -/
def WellFormed (role : Role) (inLoop : Bool) : Node → Prop
  | constant _ value => role ≠ .statement ∧ value.IsLiteral
  | name _ s => role ≠ .statement ∧ IsName s
  | block _ body => role ≠ .expression ∧ AllWellFormed .statement inLoop body
  | statement _ value => role = .statement ∧ value.WellFormed .expression inLoop
  | assign _ target value =>
    role ≠ .statement ∧ Grammar.isTarget target = true ∧ target.WellFormed .expression inLoop ∧
      value.WellFormed .expression inLoop
  | call _ callee args =>
    role ≠ .statement ∧ IsName callee.item ∧ AllWellFormed .expression inLoop args
  | binary _ left _ right | logical _ left _ right =>
    role ≠ .statement ∧ left.WellFormed .expression inLoop ∧ right.WellFormed .expression inLoop
  | unary _ _ operand => role ≠ .statement ∧ operand.WellFormed .expression inLoop
  | conditional _ condition thenBranch none =>
    condition.WellFormed .expression inLoop ∧ thenBranch.WellFormed .branch inLoop
  | conditional _ condition thenBranch (some elseBranch) =>
    condition.WellFormed .expression inLoop ∧ thenBranch.WellFormed .branch inLoop ∧
      elseBranch.WellFormed .branch inLoop
  | index _ owner key =>
    role ≠ .statement ∧ owner.WellFormed .expression inLoop ∧ key.WellFormed .expression inLoop
  | object _ properties => role ≠ .statement ∧ AllWellFormedPairs inLoop properties
  | array _ items => role ≠ .statement ∧ AllWellFormed .expression inLoop items
  | whileLoop _ condition body retain =>
    (retain = false ↔ role = .statement) ∧ condition.WellFormed .expression inLoop ∧
      body.WellFormed .branch true
  | countLoop _ counter start bound _ step body retain =>
    (retain = false ↔ role = .statement) ∧ IsName counter.item ∧
      start.WellFormed .expression inLoop ∧ bound.WellFormed .expression inLoop ∧
      step.WellFormed .expression inLoop ∧ body.WellFormed .branch true
  | eachLoop _ target collection body retain =>
    retain = true ∧ target.IsNamed ∧ collection.WellFormed .expression inLoop ∧
      body.WellFormed .branch true
  | breakLoop _ | continueLoop _ => role ≠ .statement ∧ inLoop = true
  | returnValue _ none => role ≠ .statement
  | returnValue _ (some value) => role ≠ .statement ∧ value.WellFormed .expression inLoop

/-- All trees of a list can be written where they stand. -/
def AllWellFormed (role : Role) (inLoop : Bool) : List Node → Prop
  | [] => True
  | n :: ns => n.WellFormed role inLoop ∧ AllWellFormed role inLoop ns

/-- All keys and values of a list can be written. -/
def AllWellFormedPairs (inLoop : Bool) : List (Node × Node) → Prop
  | [] => True
  | (key, value) :: ps =>
    key.WellFormed .expression inLoop ∧ value.WellFormed .expression inLoop ∧
      AllWellFormedPairs inLoop ps

end

theorem allWellFormed_iff {role : Role} {inLoop : Bool} {ns : List Node} :
    AllWellFormed role inLoop ns ↔ ∀ n ∈ ns, n.WellFormed role inLoop := by
  induction ns with
  | nil => simp [AllWellFormed]
  | cons n ns ih => simp [AllWellFormed, ih]

theorem allWellFormedPairs_iff {inLoop : Bool} {ps : List (Node × Node)} :
    AllWellFormedPairs inLoop ps ↔
      ∀ p ∈ ps, p.1.WellFormed .expression inLoop ∧ p.2.WellFormed .expression inLoop := by
  induction ps with
  | nil => simp [AllWellFormedPairs]
  | cons p ps ih =>
    obtain ⟨key, value⟩ := p
    simp [AllWellFormedPairs, ih, and_assoc]

/-- An expression may also stand as a branch. -/
theorem WellFormed.branch {inLoop : Bool} {n : Node} (h : n.WellFormed .expression inLoop) :
    n.WellFormed .branch inLoop := by
  cases n with
  | conditional _ _ _ elseBranch => cases elseBranch <;> simpa [WellFormed] using h
  | returnValue _ value => cases value <;> simp_all [WellFormed]
  | _ => simp_all [WellFormed]

@[simp] theorem wellFormed_relocate {role : Role} {inLoop : Bool} (l : Location) (n : Node) :
    (n.relocate l).WellFormed role inLoop ↔ n.WellFormed role inLoop := by
  cases n with
  | conditional _ _ _ elseBranch => cases elseBranch <;> simp [relocate, WellFormed]
  | returnValue _ value => cases value <;> simp [relocate, WellFormed]
  | _ => simp [relocate, WellFormed]

mutual

/-- Whether a tree is well-formed does not depend on its locations. -/
theorem wellFormed_mapLoc (f : Location → Location) (role : Role) (inLoop : Bool) :
    ∀ n : Node, (n.mapLoc f).WellFormed role inLoop ↔ n.WellFormed role inLoop
  | constant _ _ | name _ _ | breakLoop _ | continueLoop _ | returnValue _ none => Iff.rfl
  | block _ body => by simp [mapLoc, WellFormed, allWellFormed_mapLoc f _ _ body]
  | statement _ value => by simp [mapLoc, WellFormed, wellFormed_mapLoc f _ _ value]
  | assign _ target value => by
    simp [mapLoc, WellFormed, isTarget_mapLoc, wellFormed_mapLoc f _ _ target,
      wellFormed_mapLoc f _ _ value]
  | call _ _ args => by
    simp [mapLoc, Located.mapLoc, WellFormed, allWellFormed_mapLoc f _ _ args]
  | binary _ left _ right => by
    simp [mapLoc, WellFormed, wellFormed_mapLoc f _ _ left, wellFormed_mapLoc f _ _ right]
  | unary _ _ operand => by simp [mapLoc, WellFormed, wellFormed_mapLoc f _ _ operand]
  | logical _ left _ right => by
    simp [mapLoc, WellFormed, wellFormed_mapLoc f _ _ left, wellFormed_mapLoc f _ _ right]
  | conditional _ condition thenBranch none => by
    simp [mapLoc, WellFormed, wellFormed_mapLoc f _ _ condition,
      wellFormed_mapLoc f _ _ thenBranch]
  | conditional _ condition thenBranch (some elseBranch) => by
    simp [mapLoc, WellFormed, wellFormed_mapLoc f _ _ condition,
      wellFormed_mapLoc f _ _ thenBranch, wellFormed_mapLoc f _ _ elseBranch]
  | index _ owner key => by
    simp [mapLoc, WellFormed, wellFormed_mapLoc f _ _ owner, wellFormed_mapLoc f _ _ key]
  | object _ properties => by
    simp [mapLoc, WellFormed, allWellFormedPairs_mapLoc f _ properties]
  | array _ items => by simp [mapLoc, WellFormed, allWellFormed_mapLoc f _ _ items]
  | whileLoop _ condition body _ => by
    simp [mapLoc, WellFormed, wellFormed_mapLoc f _ _ condition, wellFormed_mapLoc f _ _ body]
  | countLoop _ _ start bound _ step body _ => by
    simp [mapLoc, Located.mapLoc, WellFormed, wellFormed_mapLoc f _ _ start,
      wellFormed_mapLoc f _ _ bound, wellFormed_mapLoc f _ _ step, wellFormed_mapLoc f _ _ body]
  | eachLoop _ target collection body _ => by
    cases target <;>
      simp [mapLoc, LoopTarget.mapLoc, LoopTarget.IsNamed, Located.mapLoc, WellFormed,
        wellFormed_mapLoc f _ _ collection, wellFormed_mapLoc f _ _ body]
  | returnValue _ (some value) => by simp [mapLoc, WellFormed, wellFormed_mapLoc f _ _ value]

theorem allWellFormed_mapLoc (f : Location → Location) (role : Role) (inLoop : Bool) :
    ∀ ns : List Node, AllWellFormed role inLoop (mapLocAll f ns) ↔ AllWellFormed role inLoop ns
  | [] => Iff.rfl
  | n :: ns => by
    simp [mapLocAll, AllWellFormed, wellFormed_mapLoc f _ _ n, allWellFormed_mapLoc f _ _ ns]

theorem allWellFormedPairs_mapLoc (f : Location → Location) (inLoop : Bool) :
    ∀ ps : List (Node × Node),
      AllWellFormedPairs inLoop (mapLocPairs f ps) ↔ AllWellFormedPairs inLoop ps
  | [] => Iff.rfl
  | (key, value) :: ps => by
    simp [mapLocPairs, AllWellFormedPairs, wellFormed_mapLoc f _ _ key,
      wellFormed_mapLoc f _ _ value, allWellFormedPairs_mapLoc f _ ps]

end

end Node

end Polyglot
