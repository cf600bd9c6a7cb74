import Polyglot.Proofs.Parsing.Spelling

/-!
# Writing trees

A way to write every tree so that it cannot be misread: every part that is an expression stands
between parentheses, every branch and every body on a line of its own, every element of a list
before a comma and every key between brackets. For a well-formed tree all of this is legible.
-/

namespace Polyglot

/-- The token of a literal. -/
def Constant.token : Constant → TokenKind
  | null => .keyword .nullKw
  | bool true => .keyword .trueKw
  | bool false => .keyword .falseKw
  | int n => .int n
  | float x => .float x
  | text s => .text s

/-- The symbol of an operator on two values. -/
def BinaryOp.symbol : BinaryOp → Symbol
  | add => .plus
  | sub => .minus
  | mul => .star
  | div => .slash
  | mod => .percent
  | eq => .eqEq
  | ne => .notEq
  | lt => .lt
  | gt => .gt
  | le => .le
  | ge => .ge

/-- The symbol of an operator on one value. -/
def UnaryOp.symbol : UnaryOp → Symbol
  | not => .bang
  | neg => .minus
  | plus => .plus

/-- The symbol of a logical operator. -/
def LogicalOp.symbol : LogicalOp → Symbol
  | and => .andAnd
  | or => .orOr
  | nullish => .nullish

/-- The keyword of a direction. -/
def Direction.keyword : Direction → Keyword
  | up => .upKw
  | down => .downKw

/-- The tokens of the names that a loop over elements binds. -/
def LoopTarget.written : LoopTarget → List TokenKind
  | single name => [.name name.item]
  | pair first second =>
    [.symbol .lparen, .name first.item, .symbol .comma, .name second.item, .symbol .rparen]

/-- Tokens between parentheses. -/
def between (inner : List TokenKind) : List TokenKind :=
  .symbol .lparen :: inner ++ [.symbol .rparen]

namespace Node

/-- The node is a block. -/
def isBlock : Node → Bool
  | block _ _ => true
  | _ => false

/-- A branch or a body, on a line of its own. -/
def asBranch (n : Node) (written : List TokenKind) : List TokenKind :=
  .eol :: if n.isBlock then written else between written

mutual

/-- The tokens of a tree. -/
def written : Node → List TokenKind
  | constant _ value => [value.token]
  | name _ s => [.name s]
  | block _ body => .symbol .lbrace :: writtenLines body ++ [.symbol .rbrace]
  | statement _ value => between value.written
  | assign _ target value => target.written ++ .symbol .assign :: between value.written
  | call _ callee args =>
    .name callee.item :: .symbol .lparen :: writtenItems args ++ [.symbol .rparen]
  | binary _ left op right => between left.written ++ .symbol op.symbol :: between right.written
  | unary _ op operand => .symbol op.symbol :: between operand.written
  | logical _ left op right => between left.written ++ .symbol op.symbol :: between right.written
  | conditional _ condition thenBranch none =>
    .keyword .ifKw :: between condition.written ++ asBranch thenBranch thenBranch.written
  | conditional _ condition thenBranch (some elseBranch) =>
    .keyword .ifKw :: between condition.written ++ asBranch thenBranch thenBranch.written ++
      .eol :: .keyword .elseKw :: asBranch elseBranch elseBranch.written
  | index _ owner key =>
    between owner.written ++ .symbol .lbracket :: between key.written ++ [.symbol .rbracket]
  | object _ properties => .symbol .lbrace :: writtenPairs properties ++ [.symbol .rbrace]
  | array _ items => .symbol .lbracket :: writtenItems items ++ [.symbol .rbracket]
  | whileLoop _ condition body _ =>
    .keyword .whileKw :: between condition.written ++ asBranch body body.written
  | countLoop _ counter start bound direction step body _ =>
    .keyword .forKw :: .name counter.item :: .symbol .assign :: between start.written ++
      .keyword .tillKw :: between bound.written ++ .keyword direction.keyword ::
        .keyword .withKw :: between step.written ++ asBranch body body.written
  | eachLoop _ target collection body _ =>
    .keyword .forKw :: target.written ++ .keyword .inKw :: between collection.written ++
      asBranch body body.written
  | breakLoop _ => [.keyword .breakKw]
  | continueLoop _ => [.keyword .continueKw]
  | returnValue _ none => [.keyword .returnKw]
  | returnValue _ (some value) => .keyword .returnKw :: between value.written

/-- The tokens of statements, each on a line of its own. -/
def writtenLines : List Node → List TokenKind
  | [] => []
  | n :: ns => n.written ++ .eol :: writtenLines ns

/-- The tokens of elements, each before a comma. -/
def writtenItems : List Node → List TokenKind
  | [] => []
  | n :: ns => between n.written ++ .symbol .comma :: writtenItems ns

/-- The tokens of keys and their values, each pair before a comma. -/
def writtenPairs : List (Node × Node) → List TokenKind
  | [] => []
  | (key, value) :: ps =>
    .symbol .lbracket :: between key.written ++ .symbol .rbracket :: .symbol .colon ::
      between value.written ++ .symbol .comma :: writtenPairs ps

end

/-! ## Written trees are legible -/

/-- All kinds of a list are legible. -/
def AllLegible (kinds : List TokenKind) : Prop :=
  ∀ kind ∈ kinds, kind.Legible

@[simp] theorem allLegible_nil : AllLegible [] := by
  simp [AllLegible]

@[simp] theorem allLegible_cons {kind : TokenKind} {kinds : List TokenKind} :
    AllLegible (kind :: kinds) ↔ kind.Legible ∧ AllLegible kinds := by
  simp [AllLegible]

@[simp] theorem allLegible_append {kinds others : List TokenKind} :
    AllLegible (kinds ++ others) ↔ AllLegible kinds ∧ AllLegible others := by
  simp [AllLegible, or_imp, forall_and]

@[simp] theorem legible_symbol (s : Symbol) : (TokenKind.symbol s).Legible := trivial

@[simp] theorem legible_keyword (k : Keyword) : (TokenKind.keyword k).Legible := trivial

@[simp] theorem legible_eol : TokenKind.eol.Legible := trivial

@[simp] theorem legible_name {s : String} : (TokenKind.name s).Legible ↔ IsName s := Iff.rfl

@[simp] theorem allLegible_between {kinds : List TokenKind} :
    AllLegible (between kinds) ↔ AllLegible kinds := by
  simp [between]

@[simp] theorem allLegible_asBranch {n : Node} {kinds : List TokenKind} :
    AllLegible (n.asBranch kinds) ↔ AllLegible kinds := by
  unfold asBranch
  split <;> simp

theorem legible_token {value : Constant} (literal : value.IsLiteral) : value.token.Legible := by
  cases value with
  | bool b => cases b <;> trivial
  | null | text => trivial
  | int | float => exact literal

theorem allLegible_target {target : LoopTarget} (named : target.IsNamed) :
    AllLegible target.written := by
  cases target with
  | single => simpa [LoopTarget.written, LoopTarget.IsNamed] using named
  | pair => simpa [LoopTarget.written, LoopTarget.IsNamed] using named

mutual

/-- A well-formed tree can be written. -/
theorem WellFormed.legible {role : Role} {inLoop : Bool} : ∀ n : Node, n.WellFormed role inLoop →
    AllLegible n.written
  | constant _ _, h => by simpa [written] using legible_token h.2
  | name _ _, h => by simpa [written] using h.2
  | block _ body, h => by simpa [written] using AllWellFormed.legibleLines body h.2
  | statement _ value, h => by simpa [written] using WellFormed.legible value h.2
  | assign _ target value, h => by
    simpa [written] using ⟨WellFormed.legible target h.2.2.1, WellFormed.legible value h.2.2.2⟩
  | call _ _ args, h => by
    simpa [written] using ⟨h.2.1, AllWellFormed.legibleItems args h.2.2⟩
  | binary _ left _ right, h => by
    simpa [written] using ⟨WellFormed.legible left h.2.1, WellFormed.legible right h.2.2⟩
  | logical _ left _ right, h => by
    simpa [written] using ⟨WellFormed.legible left h.2.1, WellFormed.legible right h.2.2⟩
  | unary _ _ operand, h => by simpa [written] using WellFormed.legible operand h.2
  | conditional _ condition thenBranch none, h => by
    simpa [written] using ⟨WellFormed.legible condition h.1, WellFormed.legible thenBranch h.2⟩
  | conditional _ condition thenBranch (some elseBranch), h => by
    simpa [written] using ⟨WellFormed.legible condition h.1,
      WellFormed.legible thenBranch h.2.1, WellFormed.legible elseBranch h.2.2⟩
  | index _ owner key, h => by
    simpa [written] using ⟨WellFormed.legible owner h.2.1, WellFormed.legible key h.2.2⟩
  | object _ properties, h => by
    simpa [written] using AllWellFormedPairs.legible properties h.2
  | array _ items, h => by simpa [written] using AllWellFormed.legibleItems items h.2
  | whileLoop _ condition body _, h => by
    simpa [written] using ⟨WellFormed.legible condition h.2.1, WellFormed.legible body h.2.2⟩
  | countLoop _ _ start bound _ step body _, h => by
    obtain ⟨-, named, startFormed, boundFormed, stepFormed, bodyFormed⟩ := h
    simpa [written] using ⟨named, WellFormed.legible start startFormed,
      WellFormed.legible bound boundFormed, WellFormed.legible step stepFormed,
      WellFormed.legible body bodyFormed⟩
  | eachLoop _ target collection body _, h => by
    obtain ⟨-, named, itemsFormed, bodyFormed⟩ := h
    simpa [written] using ⟨allLegible_target named, WellFormed.legible collection itemsFormed,
      WellFormed.legible body bodyFormed⟩
  | breakLoop _, _ | continueLoop _, _ | returnValue _ none, _ => by simp [written]
  | returnValue _ (some value), h => by simpa [written] using WellFormed.legible value h.2

theorem AllWellFormed.legibleLines {role : Role} {inLoop : Bool} : ∀ ns : List Node,
    AllWellFormed role inLoop ns → AllLegible (writtenLines ns)
  | [], _ => by simp [writtenLines]
  | n :: ns, h => by
    simpa [writtenLines] using ⟨WellFormed.legible n h.1, AllWellFormed.legibleLines ns h.2⟩

theorem AllWellFormed.legibleItems {role : Role} {inLoop : Bool} : ∀ ns : List Node,
    AllWellFormed role inLoop ns → AllLegible (writtenItems ns)
  | [], _ => by simp [writtenItems]
  | n :: ns, h => by
    simpa [writtenItems] using ⟨WellFormed.legible n h.1, AllWellFormed.legibleItems ns h.2⟩

theorem AllWellFormedPairs.legible {inLoop : Bool} : ∀ ps : List (Node × Node),
    AllWellFormedPairs inLoop ps → AllLegible (writtenPairs ps)
  | [], _ => by simp [writtenPairs]
  | (key, value) :: ps, h => by
    simpa [writtenPairs] using ⟨WellFormed.legible key h.1, WellFormed.legible value h.2.1,
      AllWellFormedPairs.legible ps h.2.2⟩

end

/-! ## How lines begin -/

/-- The first token of a line. -/
def startsLine : TokenKind → Bool
  | .symbol s => s == .lbrace || s == .lparen
  | .keyword k => k == .ifKw || k == .whileKw || k == .forKw
  | _ => false

theorem WellFormed.exists_first {inLoop : Bool} {n : Node} (h : n.WellFormed .statement inLoop) :
    ∃ kind kinds, n.written = kind :: kinds ∧ startsLine kind = true := by
  cases n with
  | block | statement | whileLoop | countLoop | eachLoop =>
    simp only [written, between, List.cons_append]
    exact ⟨_, _, rfl, by decide⟩
  | conditional _ _ _ elseBranch =>
    cases elseBranch <;>
    · simp only [written, List.cons_append]
      exact ⟨_, _, rfl, by decide⟩
  | returnValue _ value => cases value <;> simp [WellFormed] at h
  | _ => simp [WellFormed] at h

end Node

end Polyglot
