import Polyglot.Program.Tape

/-!
# The grammar

Expressions and statements refer to each other, so the rules are written over a `Grammar` that
stands for the two: every rule takes a token before it comes back to them. `Grammar.upTo n`
unrolls the rules `n` times, which is as deep as a script of half as many tokens can nest.

Binary operators form four left-associative levels, loosest first: the logical operators, the
comparisons, sums and products. Prefix operators bind tighter, and calls and indexing tightest.
-/

namespace Polyglot

open Parsing

/-- What the meaning of a token depends on besides the tokens around it. -/
structure Context where
  dictionary : Dictionary
  /-- Inside a loop body, where a loop may be left or continued. -/
  inLoop : Bool := false
  /-- Inside a block, where a closing brace may end a statement. -/
  inBlock : Bool := false

/-- Parsers of expressions and statements. -/
structure Grammar where
  expression : Context → Parsing Node
  statement : Context → Parsing Node

namespace Grammar

variable (g : Grammar) (c : Context)

/-! ## Lists -/

/-- Items up to a closing symbol, separated by commas. Line ends may stand around them, and a
comma before the closing symbol. The number bounds the items. -/
def itemsUpTo {α : Type} (close : Symbol) (item : Parsing α) : Nat → Parsing (List α)
  | 0 => unexpected (.separator close)
  | n + 1 => do
    skipEols
    if ← at? close then
      advance
      return []
    let first ← item
    skipEols
    if ← at? .comma then
      advance
    else if !(← at? close) then
      unexpected (.separator close)
    return first :: (← itemsUpTo close item n)

/-- Items up to a closing symbol. -/
def items {α : Type} (close : Symbol) (item : Parsing α) : Parsing (List α) := do
  itemsUpTo close item ((← remaining) + 1)

/-- Statements up to the closing brace of a block. The number bounds them. -/
def statementsUpTo (statement : Parsing Node) : Nat → Parsing (List Node)
  | 0 => unexpected (.symbol .rbrace)
  | n + 1 => do
    skipSeparators
    let token ← current
    match token.kind with
    | .symbol .rbrace => advance; return []
    | .eof => unexpected (.symbol .rbrace)
    | _ =>
      let first ← statement
      return first :: (← statementsUpTo statement n)

/-- Statements between braces. -/
def block : Parsing Node := do
  let start ← mark
  take .lbrace
  let body ← statementsUpTo (g.statement { c with inBlock := true }) ((← remaining) + 1)
  return .block (← since start) body

/-! ## Conditionals and loops -/

/-- A block, or a single expression, possibly on the next line. -/
def branch : Parsing Node := do
  skipEols
  if ← at? .lbrace then g.block c else g.expression c

/-- The body of a loop. -/
def loopBody : Parsing Node :=
  g.branch { c with inLoop := true }

/-- An expression between parentheses, which then count as part of it. -/
def parenthesized : Parsing Node := do
  let start ← mark
  take .lparen
  let inner ← g.expression c
  take .rparen
  return inner.relocate (← since start)

/-- A condition, with or without parentheses. -/
def condition : Parsing Node := do
  if ← at? .lparen then g.parenthesized c else g.expression c

/-- A conditional; its alternative may begin on a later line. -/
def conditional : Parsing Node := do
  let start ← mark
  takeKeyword c.dictionary .ifKw
  let test ← g.condition c
  let thenBranch ← g.branch c
  let elseBranch ←
    if (← get).pastEols.kind.isKeyword .elseKw then do
      skipEols
      advance
      some <$> g.branch c
    else pure none
  return .conditional (← since start) test thenBranch elseBranch

/-- A loop with a condition. -/
def whileLoop (retain : Bool) : Parsing Node := do
  let start ← mark
  takeKeyword c.dictionary .whileKw
  let test ← g.condition c
  let body ← g.loopBody c
  return .whileLoop (← since start) test body retain

/-- The rest of a loop over the elements of a list, after the names it binds. -/
def eachLoop (start : Cursor) (target : LoopTarget) : Parsing Node := do
  takeKeyword c.dictionary .inKw
  let collection ← g.expression c
  let body ← g.loopBody c
  return .eachLoop (← since start) target collection body true

/-- The direction of a counting loop, upwards unless it says otherwise. -/
def direction : Parsing Direction := do
  if ← atKeyword? .upKw then
    advance
    return .up
  else if ← atKeyword? .downKw then
    advance
    return .down
  else
    return .up

/-- The step of a counting loop; without one it is a literal one of no width. -/
def step : Parsing Node := do
  if ← atKeyword? .withKw then
    advance
    g.expression c
  else
    let here ← mark
    return .constant ⟨⟨here.offset, here.offset⟩, here.pos⟩ (.int 1)

/-- The rest of a counting loop, after its start value. -/
def countLoop (start : Cursor) (counter : Located String) (first : Node) (retain : Bool) :
    Parsing Node := do
  takeKeyword c.dictionary .tillKw
  let bound ← g.expression c
  let direction ← direction
  let step ← g.step c
  let body ← g.loopBody c
  return .countLoop (← since start) counter first bound direction step body retain

/-- A counting loop or a loop over elements. Only the former may drop its values. -/
def forLoop (retain : Bool) : Parsing Node := do
  let start ← mark
  takeKeyword c.dictionary .forKw
  if ← at? .lparen then
    advance
    let first ← takeName
    take .comma
    let second ← takeName
    take .rparen
    g.eachLoop c start (.pair first second)
  else
    let header ← g.expression c
    match header with
    | .assign _ (.name loc s) value => g.countLoop c start ⟨s, loc⟩ value retain
    | .assign _ target _ => reject .badLoopVariable target.loc
    | .name loc s =>
      if ← atKeyword? .inKw then g.eachLoop c start (.single ⟨s, loc⟩)
      else reject .badLoopHeader loc
    | other => reject .badLoopHeader other.loc

/-! ## Operands -/

/-- A key and its value. A bare word stands for itself, even if it is a keyword. -/
def property : Parsing (Node × Node) := do
  let token ← current
  let key ← match token.kind with
    | .text s => do advance; pure (Node.constant token.loc (.text s))
    | .name _ | .keyword _ => do advance; pure (Node.constant token.loc (.text token.text))
    | .symbol .lbracket => do
      advance
      let key ← g.expression c
      take .rbracket
      pure key
    | _ => unexpected .propertyKey
  take .colon
  skipEols
  return (key, ← g.expression c)

/-- Tokens before which a `return` has no value. -/
def endsReturn : TokenKind → Bool
  | .eol | .eof => true
  | .symbol s => [Symbol.semi, .rbrace, .rparen, .rbracket, .comma].contains s
  | .keyword k => k == .elseKw
  | _ => false

/-- Takes the next token, which makes a node by itself. -/
def single (make : Location → Node) : Parsing Node := do
  let start ← mark
  advance
  return make (← since start)

/-- A `return` with its value, if one follows. -/
def returnValue : Parsing Node := do
  let start ← mark
  advance
  let token ← current
  let value ← if endsReturn token.kind then pure none else some <$> g.expression c
  return .returnValue (← since start) value

/-- A list between brackets. -/
def array : Parsing Node := do
  let start ← mark
  advance
  let elements ← items .rbracket (g.expression c)
  return .array (← since start) elements

/-- Properties between braces. -/
def object : Parsing Node := do
  let start ← mark
  advance
  let properties ← items .rbrace (g.property c)
  return .object (← since start) properties

/-- What a keyword begins where an operand is expected. -/
def keywordOperand (token : Token) : Keyword → Parsing Node
  | .trueKw => single fun loc => .constant loc (.bool true)
  | .falseKw => single fun loc => .constant loc (.bool false)
  | .nullKw => single fun loc => .constant loc .null
  | .ifKw => g.conditional c
  | .whileKw => g.whileLoop c true
  | .forKw => g.forLoop c true
  | .breakKw => if c.inLoop then single .breakLoop else reject (.outsideLoop token.text) token.loc
  | .continueKw =>
    if c.inLoop then single .continueLoop else reject (.outsideLoop token.text) token.loc
  | .returnKw => g.returnValue c
  | _ => unexpected .expression

/-- An operand without calls and indexing. -/
def operand : Parsing Node := do
  let token ← current
  match token.kind with
  | .int n => single fun loc => .constant loc (.int n)
  | .float x => single fun loc => .constant loc (.float x)
  | .text s => single fun loc => .constant loc (.text s)
  | .name s => single fun loc => .name loc s
  | .symbol .lparen => g.parenthesized c
  | .symbol .lbracket => g.array c
  | .symbol .lbrace => g.object c
  | .keyword k => g.keywordOperand c token k
  | _ => unexpected .expression

/-- The calls and indexing after an operand. The number bounds them. -/
def trailers (start : Cursor) : Nat → Node → Parsing Node
  | 0, node => pure node
  | n + 1, node => do
    let token ← current
    match token.kind with
    | .symbol .lbracket =>
      advance
      let key ← g.expression c
      take .rbracket
      trailers start n (.index (← since start) node key)
    | .symbol .lparen =>
      match node with
      | .name loc s =>
        advance
        let args ← items .rparen (g.expression c)
        trailers start n (.call (← since start) ⟨s, loc⟩ args)
      | _ => reject .badCallee token.loc
    | _ => return node

/-- An operand with its calls and indexing. -/
def applied : Parsing Node := do
  let start ← mark
  let node ← g.operand c
  g.trailers c start (← remaining) node

/-! ## Operators -/

/-- The operator that a symbol stands for before an operand. -/
def unaryOp? : TokenKind → Option UnaryOp
  | .symbol .bang => some .not
  | .symbol .minus => some .neg
  | .symbol .plus => some .plus
  | _ => none

/-- An operand with the operators before it. The number bounds them. -/
def signed (operand : Parsing Node) : Nat → Parsing Node
  | 0 => operand
  | n + 1 => do
    match unaryOp? (← current).kind with
    | none => operand
    | some op =>
      let start ← mark
      advance
      let inner ← signed operand n
      return .unary (← since start) op inner

/-- Further operands of a level, each after an operator. The number bounds them. -/
def chainRest {α : Type} (op? : TokenKind → Option α)
    (combine : Location → Node → α → Node → Node) (operand : Parsing Node) (start : Cursor) :
    Nat → Node → Parsing Node
  | 0, left => pure left
  | n + 1, left => do
    match op? (← current).kind with
    | none => return left
    | some op =>
      advance
      let right ← operand
      chainRest op? combine operand start n (combine (← since start) left op right)

/-- Operands joined from the left by the operators of one level. -/
def chain {α : Type} (op? : TokenKind → Option α)
    (combine : Location → Node → α → Node → Node) (operand : Parsing Node) : Parsing Node := do
  let start ← mark
  let left ← operand
  chainRest op? combine operand start (← remaining) left

/-- The operators of products. -/
def productOp? : TokenKind → Option BinaryOp
  | .symbol .star => some .mul
  | .symbol .slash => some .div
  | .symbol .percent => some .mod
  | _ => none

/-- The operators of sums. -/
def sumOp? : TokenKind → Option BinaryOp
  | .symbol .plus => some .add
  | .symbol .minus => some .sub
  | _ => none

/-- The comparisons. -/
def comparisonOp? : TokenKind → Option BinaryOp
  | .symbol .eqEq => some .eq
  | .symbol .notEq => some .ne
  | .symbol .lt => some .lt
  | .symbol .gt => some .gt
  | .symbol .le => some .le
  | .symbol .ge => some .ge
  | _ => none

/-- The logical operators. -/
def logicalOp? : TokenKind → Option LogicalOp
  | .symbol .andAnd => some .and
  | .symbol .orOr => some .or
  | .symbol .nullish => some .nullish
  | _ => none

/-- An operand with prefix operators. -/
def factor : Parsing Node := do
  signed (g.applied c) (← remaining)

/-- Factors joined by products. -/
def product : Parsing Node :=
  chain productOp? .binary (g.factor c)

/-- Products joined by sums. -/
def sum : Parsing Node :=
  chain sumOp? .binary (g.product c)

/-- Sums joined by comparisons. -/
def comparison : Parsing Node :=
  chain comparisonOp? .binary (g.sum c)

/-- Comparisons joined by logical operators. -/
def logical : Parsing Node :=
  chain logicalOp? .logical (g.comparison c)

/-! ## Expressions and statements -/

/-- What may stand on the left of an assignment. -/
def isTarget : Node → Bool
  | .name _ _ | .index _ _ _ => true
  | _ => false

/-- An expression, or an assignment, which groups to the right. -/
def assignment : Parsing Node := do
  let start ← mark
  let left ← g.logical c
  if !(← at? .assign) then return left
  if !isTarget left then reject .badTarget left.loc
  advance
  let value ← g.expression c
  return .assign (← since start) left value

/-- The keyword that the name at the start of a statement may be a misspelling of. -/
def misspelled (expr : Node) : Option String :=
  let suggest (s : String) :=
    similarName s c.dictionary.spellings (if s.length ≤ 3 then 1 else suggestionThreshold)
  match expr with
  | .name _ s => suggest s
  | .call _ callee _ => suggest callee.item
  | _ => none

/-- Takes the end of a statement: a semicolon, a line end, or nothing before the end of the
script and before the brace that closes the block around it. -/
def endStatement (expr : Node) : Parsing Unit := do
  let token ← current
  match token.kind with
  | .symbol .semi | .eol => advance
  | .eof => return
  | kind =>
    if kind.isSymbol .rbrace && c.inBlock then return
    else unexpected .endOfStatement (misspelled c expr)

/-- A statement. -/
def instruction : Parsing Node := do
  let token ← current
  match token.kind with
  | .symbol .lbrace => g.block c
  | .keyword .ifKw => g.conditional c
  | .keyword .whileKw => g.whileLoop c false
  | .keyword .forKw => g.forLoop c false
  | _ =>
    let start ← mark
    let expr ← g.expression c
    let loc ← since start
    endStatement c expr
    return .statement loc expr

/-! ## Programs -/

/-- The rules with the grammar's own expressions and statements inside. -/
def unroll (g : Grammar) : Grammar where
  expression c := g.assignment c
  statement c := g.instruction c

/-- The rules unrolled `n` times. -/
def upTo : Nat → Grammar
  | 0 => ⟨fun _ => unexpected .expression, fun _ => unexpected .expression⟩
  | n + 1 => { expression := fun c => (upTo n).unroll.expression c
               statement := fun c => (upTo n).unroll.statement c }

/-- Statements up to the end of the script. The number bounds them. -/
def programUpTo (statement : Parsing Node) : Nat → Parsing (List Node)
  | 0 => unexpected .expression
  | n + 1 => do
    skipSeparators
    match (← current).kind with
    | .eof => return []
    | _ =>
      let first ← statement
      return first :: (← programUpTo statement n)

/-- The statements of a script. -/
def program (d : Dictionary) : Parsing (List Node) := do
  let n ← remaining
  programUpTo ((upTo (2 * n + 2)).statement { dictionary := d }) (n + 1)

end Grammar

namespace Program

/-- The program formed by a reading of `source`. -/
def ofReading (name source : String) (r : Reading) : Except CompileError Program := do
  let tokens ← r.tokens
  let (body, _) ← (Grammar.program r.dictionary).run { rest := tokens, eof := r.eof }
  return ⟨name, source, body⟩

/-- Reads a script under the given languages. -/
def parse (languages : Languages) (source : String) (name : String := anonymous) :
    Except CompileError Program :=
  ofReading name source (Reading.ofSource languages source)

end Program

end Polyglot
