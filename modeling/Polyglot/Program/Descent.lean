import Polyglot.Program.Grammar

/-!
# The descent

The rules of the grammar as one descent through an array of tokens. The place of the next token and
two counters of what is open stand for the tape and its context, and operators are climbed by how
tightly they bind instead of being read level by level.

The number that a rule is given bounds how deep it may come back to rules, once more for each round
of a loop. What is cut off has no outcome. That a descent comes to its end, whatever larger number
it is given, is for proofs to show, as is that it never asks for a token outside the array and never
lowers a counter below zero.
-/

namespace Polyglot

/-- How tightly an operator binds. -/
def BinaryOp.precedence : BinaryOp → Nat
  | eq | ne | lt | gt | le | ge => 10
  | add | sub => 20
  | mul | div | mod => 40

/-- A descent on its way. -/
structure Parser where
  /-- The tokens of the script, its end included. -/
  tokens : Array Token
  /-- The place of the next token. -/
  index : Nat := 0
  /-- Where the last token taken ends. -/
  readTo : Nat := 0
  /-- The loop bodies that are open. Without one, no loop can be left or continued. -/
  loopDepth : Nat := 0
  /-- The blocks that are open. Inside one, a closing brace may end a statement. -/
  blockDepth : Nat := 0
  dictionary : Dictionary

/-- A parser at the start of a script that was read, unless the reading has a fault. -/
def Parser.ofReading (r : Reading) : Except CompileError Parser := do
  let tokens ← r.tokens
  return { tokens := (tokens ++ [r.eof]).toArray, dictionary := r.dictionary }

/-- A step that no process survives. -/
inductive Crash
  /-- A token outside the array. -/
  | outOfRange
  /-- A counter below zero. -/
  | underflow
deriving DecidableEq, Inhabited

/-- Steps of a parser. Those that are cut off have no outcome. -/
abbrev Moves := StateT Parser (ExceptT Crash Option)

/-- Steps that may reject the script, after which the parser is as they left it. -/
abbrev Descent := ExceptT CompileError Moves

namespace Descent

/-- A descent that is cut off before its end. -/
def unfinished {α : Type} : Descent α :=
  liftM (none : Option α)

/-! ## Tokens -/

/-- The next token. -/
def current : Descent Token := do
  let p ← get
  match p.tokens[min p.index (p.tokens.size - 1)]? with
  | some token => return token
  | none => throwThe Crash .outOfRange

/-- Takes the next token; the end of the script is not taken. -/
def advance : Descent Unit := do
  let token ← current
  match token.kind with
  | .eof => return
  | _ => modify fun p => { p with index := p.index + 1, readTo := token.loc.span.stop }

/-- Takes tokens as long as their kind satisfies `p`. -/
def skip : Nat → (TokenKind → Bool) → Descent Unit
  | 0, _ => unfinished
  | n + 1, p => do
    let token ← current
    if p token.kind then
      advance
      skip n p

/-- Takes line ends. -/
def skipEols (n : Nat) : Descent Unit :=
  skip n TokenKind.isEol

/-- Takes line ends and semicolons. -/
def skipSeparators (n : Nat) : Descent Unit :=
  skip n fun kind => kind.isEol || kind.isSymbol .semi

/-- The next token that does not end a line. -/
def pastEols : Descent Token := do
  let p ← get
  if p.tokens.size < p.index then throwThe Crash .outOfRange
  else
    match (p.tokens.toList.drop p.index).find? fun token => !token.kind.isEol with
    | some token => return token
    | none => current

/-- The next token is the given symbol. -/
def at? (s : Symbol) : Descent Bool :=
  return (← current).kind.isSymbol s

/-- The next token is the given keyword. -/
def atKeyword? (k : Keyword) : Descent Bool :=
  return (← current).kind.isKeyword k

/-- Rejects the script. -/
def reject {α : Type} (fault : GrammarFault) (loc : Location) : Descent α :=
  throw ⟨.grammatical fault, loc⟩

/-- Rejects the next token where something else is expected. -/
def unexpected {α : Type} (expected : Expected) (suggestion : Option String := none) :
    Descent α := do
  let token ← current
  match token.kind with
  | .invalid text => reject (.strayCharacter text suggestion) token.loc
  | _ => reject (.unexpected expected (Parsing.found token) suggestion) token.loc

/-- Takes the given symbol. -/
def take (s : Symbol) : Descent Unit := do
  if ← at? s then advance else unexpected (.symbol s)

/-- Takes the given keyword, which messages spell as the dictionary does. -/
def takeKeyword (k : Keyword) : Descent Unit := do
  if ← atKeyword? k then advance
  else unexpected (.keyword ((← get).dictionary.spelling k))

/-- Takes a name. -/
def takeName : Descent (Located String) := do
  let token ← current
  match token.kind with
  | .name s => do advance; return ⟨s, token.loc⟩
  | _ => unexpected .identifier

/-- Where the next token starts. -/
def mark : Descent Cursor := do
  let token ← current
  return ⟨token.loc.span.start, token.loc.pos⟩

/-- The location from a mark to the last token taken. -/
def since (start : Cursor) : Descent Location := do
  let p ← get
  return ⟨⟨start.offset, max p.readTo start.offset⟩, start.pos⟩

/-- Takes the next token, which makes a node by itself. -/
def single (make : Location → Node) : Descent Node := do
  let start ← mark
  advance
  return make (← since start)

/-! ## What is open -/

/-- One less than the value of a counter. -/
def lowered : Nat → Moves Nat
  | 0 => throwThe Crash .underflow
  | n + 1 => return n

/-- Opens the body of a loop. -/
def enterLoop : Moves Unit :=
  modify fun p => { p with loopDepth := p.loopDepth + 1 }

/-- Closes the body of a loop. -/
def leaveLoop : Moves Unit := do
  let p ← get
  let depth ← lowered p.loopDepth
  set { p with loopDepth := depth }

/-- Opens a block. -/
def enterBlock : Moves Unit :=
  modify fun p => { p with blockDepth := p.blockDepth + 1 }

/-- Closes a block. -/
def leaveBlock : Moves Unit := do
  let p ← get
  let depth ← lowered p.blockDepth
  set { p with blockDepth := depth }

/-! ## Rules that do not come back to themselves -/

/-- The operator between two operands that a symbol stands for. -/
def binaryOp? : TokenKind → Option BinaryOp
  | .symbol .star => some .mul
  | .symbol .slash => some .div
  | .symbol .percent => some .mod
  | .symbol .plus => some .add
  | .symbol .minus => some .sub
  | .symbol .eqEq => some .eq
  | .symbol .notEq => some .ne
  | .symbol .lt => some .lt
  | .symbol .gt => some .gt
  | .symbol .le => some .le
  | .symbol .ge => some .ge
  | _ => none

/-- Takes the end of a statement: a semicolon, a line end, or nothing before the end of the
script and before the brace that closes the block around it. -/
def endStatement (expr : Node) : Descent Unit := do
  let token ← current
  match token.kind with
  | .symbol .semi | .eol => advance
  | .eof => return
  | kind => do
    let p ← get
    if kind.isSymbol .rbrace && 0 < p.blockDepth then return
    else unexpected .endOfStatement (Grammar.misspelled { dictionary := p.dictionary } expr)

/-- The direction of a counting loop, upwards unless it says otherwise. -/
def direction : Descent Direction := do
  if ← atKeyword? .upKw then
    advance
    return .up
  else if ← atKeyword? .downKw then
    advance
    return .down
  else
    return .up

/-- What the items of a list are. -/
inductive Item
  | expression
  | property

/-- What an item is read as. -/
abbrev Item.Reading : Item → Type
  | expression => Node
  | property => Node × Node

/-! ## Rules -/

mutual

/-- Statements up to the end of the script. -/
def program : Nat → Descent (List Node)
  | 0 => unfinished
  | n + 1 => do
    skipSeparators n
    match (← current).kind with
    | .eof => return []
    | _ => do
      let first ← statement n
      return first :: (← program n)

/-- A statement. -/
def statement : Nat → Descent Node
  | 0 => unfinished
  | n + 1 => do
    let token ← current
    match token.kind with
    | .symbol .lbrace => block n
    | .keyword .ifKw => conditional n
    | .keyword .whileKw => whileLoop n false
    | .keyword .forKw => forLoop n false
    | _ => do
      let start ← mark
      let expr ← expression n
      let loc ← since start
      endStatement expr
      return .statement loc expr

/-- Statements between braces. -/
def block : Nat → Descent Node
  | 0 => unfinished
  | n + 1 => do
    let start ← mark
    take .lbrace
    enterBlock
    let body ← statements n
    take .rbrace
    leaveBlock
    return .block (← since start) body

/-- Statements before the closing brace of a block. -/
def statements : Nat → Descent (List Node)
  | 0 => unfinished
  | n + 1 => do
    skipSeparators n
    let token ← current
    match token.kind with
    | .symbol .rbrace => return []
    | .eof => unexpected (.symbol .rbrace)
    | _ => do
      let first ← statement n
      return first :: (← statements n)

/-- A block, or a single expression, possibly on the next line. -/
def branch : Nat → Descent Node
  | 0 => unfinished
  | n + 1 => do
    skipEols n
    if ← at? .lbrace then block n else expression n

/-- The body of a loop, which is closed even if it is rejected. -/
def loopBody : Nat → Descent Node
  | 0 => unfinished
  | n + 1 => (do
    enterLoop
    let body ← ExceptT.run (branch n)
    leaveLoop
    return body : Moves (Except CompileError Node))

/-- An expression between parentheses, which then count as part of it. -/
def parenthesized : Nat → Descent Node
  | 0 => unfinished
  | n + 1 => do
    let start ← mark
    take .lparen
    let inner ← expression n
    take .rparen
    return inner.relocate (← since start)

/-- A condition, with or without parentheses. -/
def condition : Nat → Descent Node
  | 0 => unfinished
  | n + 1 => do
    if ← at? .lparen then parenthesized n else expression n

/-- A conditional; its alternative may begin on a later line. -/
def conditional : Nat → Descent Node
  | 0 => unfinished
  | n + 1 => do
    let start ← mark
    takeKeyword .ifKw
    let test ← condition n
    let thenBranch ← branch n
    let next ← pastEols
    if next.kind.isKeyword .elseKw then
      skipEols n
      advance
      let elseBranch ← branch n
      return .conditional (← since start) test thenBranch (some elseBranch)
    else
      return .conditional (← since start) test thenBranch none

/-- A loop with a condition. -/
def whileLoop : Nat → Bool → Descent Node
  | 0, _ => unfinished
  | n + 1, retain => do
    let start ← mark
    takeKeyword .whileKw
    let test ← condition n
    let body ← loopBody n
    return .whileLoop (← since start) test body retain

/-- The rest of a loop over the elements of a list, after the names it binds. -/
def eachLoop : Nat → Cursor → LoopTarget → Descent Node
  | 0, _, _ => unfinished
  | n + 1, start, target => do
    takeKeyword .inKw
    let collection ← expression n
    let body ← loopBody n
    return .eachLoop (← since start) target collection body true

/-- The step of a counting loop; without one it is a literal one of no width. -/
def step : Nat → Descent Node
  | 0 => unfinished
  | n + 1 => do
    if ← atKeyword? .withKw then
      advance
      expression n
    else
      let here ← mark
      return .constant ⟨⟨here.offset, here.offset⟩, here.pos⟩ (.int 1)

/-- The rest of a counting loop, after its start value. -/
def countLoop : Nat → Cursor → Located String → Node → Bool → Descent Node
  | 0, _, _, _, _ => unfinished
  | n + 1, start, counter, first, retain => do
    takeKeyword .tillKw
    let bound ← expression n
    let direction ← direction
    let step ← step n
    let body ← loopBody n
    return .countLoop (← since start) counter first bound direction step body retain

/-- A counting loop or a loop over elements. Only the former may drop its values. -/
def forLoop : Nat → Bool → Descent Node
  | 0, _ => unfinished
  | n + 1, retain => do
    let start ← mark
    takeKeyword .forKw
    if ← at? .lparen then
      advance
      let first ← takeName
      take .comma
      let second ← takeName
      take .rparen
      eachLoop n start (.pair first second)
    else
      let header ← expression n
      match header with
      | .assign _ (.name loc s) value => countLoop n start ⟨s, loc⟩ value retain
      | .assign _ target _ => reject .badLoopVariable target.loc
      | .name loc s => do
        if ← atKeyword? .inKw then eachLoop n start (.single ⟨s, loc⟩)
        else reject .badLoopHeader loc
      | other => reject .badLoopHeader other.loc

/-- An expression, or an assignment, which groups to the right. -/
def expression : Nat → Descent Node
  | 0 => unfinished
  | n + 1 => do
    let start ← mark
    let left ← logical n
    if ← at? .assign then
      if Grammar.isTarget left then
        advance
        let value ← expression n
        return .assign (← since start) left value
      else reject .badTarget left.loc
    else return left

/-- Operands of the logical operators, joined from the left. -/
def logical : Nat → Descent Node
  | 0 => unfinished
  | n + 1 => do
    let start ← mark
    let left ← binary n 0
    logicalRest n start left

/-- Further operands of the logical operators, each after its operator. -/
def logicalRest : Nat → Cursor → Node → Descent Node
  | 0, _, _ => unfinished
  | n + 1, start, left => do
    match Grammar.logicalOp? (← current).kind with
    | none => return left
    | some op => do
      advance
      let right ← binary n 0
      logicalRest n start (.logical (← since start) left op right)

/-- Operands joined by operators that bind at least as tightly as `least`. -/
def binary : Nat → Nat → Descent Node
  | 0, _ => unfinished
  | n + 1, least => do
    let start ← mark
    let left ← unary n
    binaryRest n least start left

/-- Further operands, each after an operator that binds at least as tightly as `least`. An operand
takes what binds more tightly than the operator before it. -/
def binaryRest : Nat → Nat → Cursor → Node → Descent Node
  | 0, _, _, _ => unfinished
  | n + 1, least, start, left => do
    match binaryOp? (← current).kind with
    | none => return left
    | some op =>
      if op.precedence < least then return left
      else do
        advance
        let right ← binary n (op.precedence + 1)
        binaryRest n least start (.binary (← since start) left op right)

/-- An operand with the operators before it. -/
def unary : Nat → Descent Node
  | 0 => unfinished
  | n + 1 => do
    match Grammar.unaryOp? (← current).kind with
    | none => applied n
    | some op => do
      let start ← mark
      advance
      let inner ← unary n
      return .unary (← since start) op inner

/-- An operand with its calls and indexing. -/
def applied : Nat → Descent Node
  | 0 => unfinished
  | n + 1 => do
    let start ← mark
    let node ← operand n
    trailers n start node

/-- The calls and indexing after an operand. -/
def trailers : Nat → Cursor → Node → Descent Node
  | 0, _, _ => unfinished
  | n + 1, start, node => do
    let token ← current
    match token.kind with
    | .symbol .lbracket => do
      advance
      let key ← expression n
      take .rbracket
      trailers n start (.index (← since start) node key)
    | .symbol .lparen =>
      match node with
      | .name loc s => do
        advance
        let args ← list n .rparen .expression
        trailers n start (.call (← since start) ⟨s, loc⟩ args)
      | _ => reject .badCallee token.loc
    | _ => return node

/-- Items separated by commas up to a closing symbol, which is taken as well. -/
def list : Nat → Symbol → (item : Item) → Descent (List item.Reading)
  | 0, _, _ => unfinished
  | n + 1, close, item => do
    let found ← items n close item
    take close
    return found

/-- Items before a closing symbol. Line ends may stand around them, and a comma after the last. -/
def items : Nat → Symbol → (item : Item) → Descent (List item.Reading)
  | 0, _, _ => unfinished
  | n + 1, close, item => do
    skipEols n
    if ← at? close then return []
    else do
      let first ← oneItem n item
      skipEols n
      if ← at? .comma then do
        advance
        return first :: (← items n close item)
      else if ← at? close then return first :: (← items n close item)
      else unexpected (.separator close)

/-- An item of a list. -/
def oneItem : Nat → (item : Item) → Descent item.Reading
  | 0, _ => unfinished
  | n + 1, .expression => expression n
  | n + 1, .property => property n

/-- An operand without calls and indexing. -/
def operand : Nat → Descent Node
  | 0 => unfinished
  | n + 1 => do
    let token ← current
    match token.kind with
    | .int i => single fun loc => .constant loc (.int i)
    | .float x => single fun loc => .constant loc (.float x)
    | .text s => single fun loc => .constant loc (.text s)
    | .name s => single fun loc => .name loc s
    | .symbol .lparen => parenthesized n
    | .symbol .lbracket => do
      let start ← mark
      advance
      let elements ← list n .rbracket .expression
      return .array (← since start) elements
    | .symbol .lbrace => do
      let start ← mark
      advance
      let properties ← list n .rbrace .property
      return .object (← since start) properties
    | .keyword k => keywordOperand n token k
    | _ => unexpected .expression

/-- What a keyword begins where an operand is expected. -/
def keywordOperand : Nat → Token → Keyword → Descent Node
  | 0, _, _ => unfinished
  | n + 1, token, k => do
    match k with
    | .trueKw => single fun loc => .constant loc (.bool true)
    | .falseKw => single fun loc => .constant loc (.bool false)
    | .nullKw => single fun loc => .constant loc .null
    | .ifKw => conditional n
    | .whileKw => whileLoop n true
    | .forKw => forLoop n true
    | .breakKw => do
      if 0 < (← get).loopDepth then single .breakLoop
      else reject (.outsideLoop token.text) token.loc
    | .continueKw => do
      if 0 < (← get).loopDepth then single .continueLoop
      else reject (.outsideLoop token.text) token.loc
    | .returnKw => returnValue n
    | _ => unexpected .expression

/-- A `return` with its value, if one follows. -/
def returnValue : Nat → Descent Node
  | 0 => unfinished
  | n + 1 => do
    let start ← mark
    advance
    let token ← current
    if Grammar.endsReturn token.kind then return .returnValue (← since start) none
    else do
      let value ← expression n
      return .returnValue (← since start) (some value)

/-- A key and its value. A bare word stands for itself, even if it is a keyword. -/
def property : Nat → Descent (Node × Node)
  | 0 => unfinished
  | n + 1 => do
    let token ← current
    match token.kind with
    | .text s => do
      advance
      propertyValue n (.constant token.loc (.text s))
    | .name _ | .keyword _ => do
      advance
      propertyValue n (.constant token.loc (.text token.text))
    | .symbol .lbracket => do
      advance
      let key ← expression n
      take .rbracket
      propertyValue n key
    | _ => unexpected .propertyKey

/-- The rest of a property, after its key. -/
def propertyValue : Nat → Node → Descent (Node × Node)
  | 0, _ => unfinished
  | n + 1, key => do
    take .colon
    skipEols n
    return (key, ← expression n)

end

end Descent

end Polyglot
