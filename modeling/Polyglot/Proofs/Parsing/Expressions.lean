import Mathlib.Data.List.Forall2
import Polyglot.Proofs.Parsing.Reads

/-!
# Reading written expressions

The rules of the grammar for expressions read what is written for a tree, over a grammar that
already reads the parts of the tree, whatever follows it unless that could belong to it.
-/

namespace Polyglot

open Parsing

/-! ## What may follow -/

namespace TokenKind

/-- No expression goes on with the token. -/
def endsExpression : TokenKind → Bool
  | symbol s => [Symbol.rparen, .rbracket, .rbrace, .comma].contains s
  | keyword _ | eol | eof => true
  | _ => false

theorem eq_of_endsExpression {s : Symbol} (ends : (symbol s).endsExpression = true) :
    s = .rparen ∨ s = .rbracket ∨ s = .rbrace ∨ s = .comma := by
  simpa [endsExpression] using ends

end TokenKind

/-- The tokens begin with one that no expression goes on with. -/
def Stops (rest : List TokenKind) : Prop :=
  (rest.headD .eof).endsExpression = true

/-- No expression goes on with the tokens, not even on a later line. -/
structure Closed (rest : List TokenKind) : Prop where
  stops : Stops rest
  noElse : ((rest.dropWhile TokenKind.isEol).headD .eof).isKeyword .elseKw = false

theorem closed_symbol {s : Symbol} (ends : (TokenKind.symbol s).endsExpression = true)
    (rest : List TokenKind) : Closed (.symbol s :: rest) :=
  ⟨ends, rfl⟩

/-- The tokens neither call nor index what stands before them. -/
structure Detached (rest : List TokenKind) : Prop where
  call : rest.headD .eof ≠ .symbol .lparen
  index : rest.headD .eof ≠ .symbol .lbracket

theorem Stops.detached {rest : List TokenKind} (stops : Stops rest) : Detached rest := by
  unfold Stops at stops
  constructor <;>
  · intro same
    rw [same] at stops
    cases stops

namespace Node

/-- The same tree but for locations. -/
abbrev Same (n m : Node) : Prop :=
  m.erase = n.erase

/-- The same key and the same value. -/
def SamePair (p q : Node × Node) : Prop :=
  p.1.Same q.1 ∧ p.2.Same q.2

theorem Same.all {ns ms : List Node} (same : List.Forall₂ Same ns ms) :
    mapLocAll (fun _ => default) ms = mapLocAll (fun _ => default) ns := by
  induction same with
  | nil => rfl
  | cons first _ ih => exact congrArg₂ List.cons first ih

theorem SamePair.all {ps qs : List (Node × Node)} (same : List.Forall₂ SamePair ps qs) :
    mapLocPairs (fun _ => default) qs = mapLocPairs (fun _ => default) ps := by
  induction same with
  | nil => rfl
  | cons first _ ih => exact congrArg₂ List.cons (congrArg₂ Prod.mk first.1 first.2) ih

end Node

namespace Grammar

variable {g : Grammar} {c : Context} {n : Node} {kinds rest : List TokenKind} {Q : Node → Prop}

/-- The written tree is read as an expression up to a closing parenthesis. -/
def ReadsBare (g : Grammar) (c : Context) (n : Node) : Prop :=
  ∀ rest, Reads (g.expression c) (n.written ++ .symbol .rparen :: rest) (.symbol .rparen :: rest)
    n.Same

/-- The written tree is read as an expression between parentheses. -/
def ReadsBetween (g : Grammar) (c : Context) (n : Node) : Prop :=
  ∀ rest, Stops rest → Reads (g.expression c) (between n.written ++ rest) rest n.Same

/-! ## Operators -/

theorem reads_trailers (detached : Detached rest) (start : Cursor) (k : Nat) (node : Node) :
    Reads (g.trailers c start k node) rest rest (· = node) := by
  cases k with
  | zero => exact .pure rfl
  | succ k =>
    unfold trailers
    refine reads_current.bind fun token kind => ?_
    split
    · rename_i index
      exact absurd (kind.symm.trans index) detached.index
    · rename_i call
      exact absurd (kind.symm.trans call) detached.call
    · exact .pure rfl

theorem reads_applied (operand : Reads (g.operand c) kinds rest Q) (detached : Detached rest) :
    Reads (g.applied c) kinds rest Q :=
  reads_mark.bind fun start _ => operand.bind fun node holds => reads_remaining.bind fun k _ =>
    (reads_trailers detached start k node).imp fun _ same => same ▸ holds

theorem reads_factor (applied : Reads (g.applied c) kinds rest Q)
    (plain : unaryOp? (kinds.headD .eof) = none) : Reads (g.factor c) kinds rest Q := by
  refine reads_remaining.bind fun k _ => ?_
  cases k with
  | zero => exact applied
  | succ k =>
    refine reads_current.bind fun token kind => ?_
    rw [kind, plain]
    exact applied

section Chain

variable {α : Type} {op? : TokenKind → Option α} {combine : Location → Node → α → Node → Node}
  {operand : Parsing Node}

theorem reads_chainRest (ends : op? (rest.headD .eof) = none) (start : Cursor) (k : Nat)
    (left : Node) : Reads (chainRest op? combine operand start k left) rest rest (· = left) := by
  cases k with
  | zero => exact .pure rfl
  | succ k =>
    refine reads_current.bind fun token kind => ?_
    rw [kind, ends]
    exact .pure rfl

/-- A single operand is a chain. -/
theorem reads_chain_one (inner : Reads operand kinds rest Q) (ends : op? (rest.headD .eof) = none) :
    Reads (chain op? combine operand) kinds rest Q :=
  reads_mark.bind fun start _ => inner.bind fun left holds => reads_remaining.bind fun k _ =>
    (reads_chainRest ends start k left).imp fun _ same => same ▸ holds

/-- Two operands with an operator between them are a chain. -/
theorem reads_chain_two {kind : TokenKind} {more : List TokenKind} {op : α} {P R : Node → Prop}
    (first : Reads operand kinds (kind :: more) P) (known : op? kind = some op)
    (second : Reads operand more rest R) (ends : op? (rest.headD .eof) = none)
    (whole : ∀ l a b, P a → R b → Q (combine l a op b)) :
    Reads (chain op? combine operand) kinds rest Q := by
  refine reads_mark.bind fun start _ => first.bind fun left leftHolds =>
    reads_remaining.bind ?_
  rintro _ rfl
  rw [List.length_cons]
  refine reads_current.bind fun token same => ?_
  rw [same, List.headD_cons, known]
  exact reads_advance.bind fun _ _ => second.bind fun right rightHolds =>
    (reads_since start).bind fun l _ => (reads_chainRest ends start _ _).imp fun _ same =>
      same ▸ whole l left right leftHolds rightHolds

end Chain

theorem ops_of_stops (stops : Stops rest) :
    productOp? (rest.headD .eof) = none ∧ sumOp? (rest.headD .eof) = none ∧
      comparisonOp? (rest.headD .eof) = none ∧ logicalOp? (rest.headD .eof) = none ∧
      (rest.headD .eof).isSymbol .assign = false := by
  unfold Stops at stops
  cases kind : rest.headD .eof with
  | symbol s =>
    rw [kind] at stops
    rcases TokenKind.eq_of_endsExpression stops with rfl | rfl | rfl | rfl <;>
      exact ⟨rfl, rfl, rfl, rfl, rfl⟩
  | _ => exact ⟨rfl, rfl, rfl, rfl, rfl⟩

theorem reads_comparison (factor : Reads (g.factor c) kinds rest Q)
    (product : productOp? (rest.headD .eof) = none) (sum : sumOp? (rest.headD .eof) = none)
    (comparison : comparisonOp? (rest.headD .eof) = none) :
    Reads (g.comparison c) kinds rest Q :=
  reads_chain_one (reads_chain_one (reads_chain_one factor product) sum) comparison

theorem reads_unassigned (logical : Reads (g.logical c) kinds rest Q)
    (plain : (rest.headD .eof).isSymbol .assign = false) :
    Reads (g.assignment c) kinds rest Q := by
  refine reads_mark.bind fun start _ => logical.bind fun left holds => (reads_at _).bind ?_
  rintro _ rfl
  rw [plain]
  exact .pure holds

theorem reads_assignment (logical : Reads (g.logical c) kinds rest Q) (stops : Stops rest) :
    Reads (g.assignment c) kinds rest Q :=
  reads_unassigned logical (ops_of_stops stops).2.2.2.2

/-- What is read as a factor is an expression. -/
theorem reads_of_factor (factor : Reads (g.factor c) kinds rest Q) (stops : Stops rest) :
    Reads (g.assignment c) kinds rest Q := by
  obtain ⟨product, sum, comparison, logical, -⟩ := ops_of_stops stops
  exact reads_assignment (reads_chain_one (reads_comparison factor product sum comparison) logical)
    stops

/-- What is read as an operand is an expression. -/
theorem reads_of_operand (operand : Reads (g.operand c) kinds rest Q)
    (plain : unaryOp? (kinds.headD .eof) = none) (stops : Stops rest) :
    Reads (g.assignment c) kinds rest Q :=
  reads_of_factor (reads_factor (reads_applied operand stops.detached) plain) stops

/-- Two factors around an operator. -/
theorem reads_binary {op : BinaryOp} {more : List TokenKind} {P R : Node → Prop}
    (left : Reads (g.factor c) kinds (.symbol op.symbol :: more) P)
    (right : Reads (g.factor c) more rest R) (stops : Stops rest)
    (whole : ∀ l a b, P a → R b → Q (.binary l a op b)) :
    Reads (g.assignment c) kinds rest Q := by
  obtain ⟨product, sum, comparison, logical, -⟩ := ops_of_stops stops
  refine reads_assignment (reads_chain_one ?_ logical) stops
  -- The operator belongs to one of three levels; at the tighter ones both sides stand alone.
  cases op with
  | mul | div | mod =>
    exact reads_chain_one (reads_chain_one (reads_chain_two left rfl right product whole) sum)
      comparison
  | add | sub =>
    exact reads_chain_one (reads_chain_two (reads_chain_one left rfl) rfl
      (reads_chain_one right product) sum whole) comparison
  | eq | ne | lt | gt | le | ge =>
    exact reads_chain_two (reads_chain_one (reads_chain_one left rfl) rfl) rfl
      (reads_chain_one (reads_chain_one right product) sum) comparison whole

/-- Two factors around a logical operator. -/
theorem reads_logical {op : LogicalOp} {more : List TokenKind} {P R : Node → Prop}
    (left : Reads (g.factor c) kinds (.symbol op.symbol :: more) P)
    (right : Reads (g.factor c) more rest R) (stops : Stops rest)
    (whole : ∀ l a b, P a → R b → Q (.logical l a op b)) :
    Reads (g.assignment c) kinds rest Q := by
  obtain ⟨product, sum, comparison, logical, -⟩ := ops_of_stops stops
  cases op <;>
  · exact reads_assignment (reads_chain_two (reads_comparison left rfl rfl rfl) rfl
      (reads_comparison right product sum comparison) logical whole) stops

theorem detached_binary (op : BinaryOp) (rest : List TokenKind) :
    Detached (.symbol op.symbol :: rest) := by
  cases op <;> exact ⟨by simp [BinaryOp.symbol], by simp [BinaryOp.symbol]⟩

theorem detached_logical (op : LogicalOp) (rest : List TokenKind) :
    Detached (.symbol op.symbol :: rest) := by
  cases op <;> exact ⟨by simp [LogicalOp.symbol], by simp [LogicalOp.symbol]⟩

/-! ## Operands -/

theorem reads_parenthesized (bare : g.ReadsBare c n) (rest : List TokenKind) :
    Reads (g.parenthesized c) (between n.written ++ rest) rest n.Same := by
  rw [between, List.append_assoc, List.cons_append, List.singleton_append]
  exact reads_mark.bind fun start _ => (reads_take _).bind fun _ _ => (bare rest).bind fun _ same =>
    (reads_take _).bind fun _ _ => (reads_since start).bind fun l _ =>
      .pure ((Node.erase_relocate l _).trans same)

theorem reads_operandBetween (bare : g.ReadsBare c n) (rest : List TokenKind) :
    Reads (g.operand c) (between n.written ++ rest) rest n.Same := by
  refine reads_current.bind fun token kind => ?_
  rw [kind]
  exact reads_parenthesized bare rest

theorem reads_factorBetween (bare : g.ReadsBare c n) (detached : Detached rest) :
    Reads (g.factor c) (between n.written ++ rest) rest n.Same :=
  reads_factor (reads_applied (reads_operandBetween bare rest) detached) rfl

/-- What is read bare by the rules is read between parentheses by the rules unrolled once more. -/
theorem readsBetween_upTo {k : Nat} (bare : (upTo k).ReadsBare c n) :
    (upTo (k + 1)).ReadsBetween c n :=
  fun _ stops => reads_of_factor (reads_factorBetween bare stops.detached) stops

theorem reads_unary (l : Location) (op : UnaryOp) (bare : g.ReadsBare c n) (stops : Stops rest) :
    Reads (g.assignment c) ((Node.unary l op n).written ++ rest) rest (Node.unary l op n).Same := by
  have inner := reads_applied (reads_operandBetween bare rest) stops.detached
  have kinds : (Node.unary l op n).written ++ rest =
      .symbol op.symbol :: (between n.written ++ rest) := by
    simp [Node.written]
  have known : unaryOp? (.symbol op.symbol) = some op := by cases op <;> rfl
  rw [kinds]
  refine reads_of_factor (reads_remaining.bind ?_) stops
  rintro _ rfl
  rw [List.length_cons]
  refine reads_current.bind fun token kind => ?_
  rw [kind, List.headD_cons, known]
  have operand : Reads (signed (g.applied c) (between n.written ++ rest).length)
      (between n.written ++ rest) rest n.Same :=
    reads_current.bind fun token kind => kind ▸ inner
  exact reads_mark.bind fun start _ => reads_advance.bind fun _ _ => operand.bind fun _ same =>
    (reads_since start).bind fun _ _ => .pure (congrArg (Node.unary default op) same)

theorem reads_single {make : Location → Node} {kind : TokenKind} (holds : ∀ l, Q (make l)) :
    Reads (single make) (kind :: rest) rest Q :=
  reads_mark.bind fun start _ => reads_advance.bind fun _ _ => (reads_since start).bind fun l _ =>
    .pure (holds l)

theorem reads_constant (l : Location) (value : Constant) (stops : Stops rest) :
    Reads (g.assignment c) ((Node.constant l value).written ++ rest) rest
      (Node.constant l value).Same := by
  have plain : unaryOp? value.token = none := by
    cases value with
    | bool b => cases b <;> rfl
    | _ => rfl
  refine reads_of_operand (reads_current.bind fun token kind => ?_) plain stops
  rw [kind]
  cases value with
  | bool b => cases b <;> exact reads_single fun _ => rfl
  | _ => exact reads_single fun _ => rfl

theorem reads_name (s : String) :
    Reads (g.operand c) (.name s :: rest) rest fun m => ∃ l, m = .name l s := by
  refine reads_current.bind fun token kind => ?_
  rw [kind]
  exact reads_single fun l => ⟨l, rfl⟩

theorem reads_nameAlone (s : String) (stops : Stops rest) :
    Reads (g.assignment c) (.name s :: rest) rest fun m => ∃ l, m = .name l s :=
  reads_of_operand (reads_name s) rfl stops

/-- A construct that begins with a keyword where an operand is expected. -/
theorem reads_keyword {k : Keyword} {p : Parsing Node}
    (operand : ∀ token, g.keywordOperand c token k = p) (kinds : List TokenKind)
    (construct : Reads p (.keyword k :: kinds) rest Q) (stops : Stops rest) :
    Reads (g.assignment c) (.keyword k :: kinds) rest Q := by
  refine reads_of_operand (reads_current.bind fun token kind => ?_) rfl stops
  rw [kind]
  show Reads (g.keywordOperand c token k) _ _ _
  rw [operand]
  exact construct

theorem reads_returnNone (l : Location) (rest : List TokenKind) :
    Reads (g.returnValue c) (.keyword .returnKw :: .symbol .rparen :: rest)
      (.symbol .rparen :: rest) (Node.returnValue l none).Same := by
  refine reads_mark.bind fun start _ => reads_advance.bind fun _ _ =>
    reads_current.bind fun token kind => ?_
  dsimp only
  rw [kind, List.headD_cons, if_pos (by decide)]
  refine (Reads.pure (Q := fun value => value = none) rfl).bind ?_
  rintro _ rfl
  exact (reads_since start).bind fun _ _ => .pure rfl

theorem reads_returnSome (l : Location) (value : g.ReadsBetween c n) (stops : Stops rest) :
    Reads (g.returnValue c) (.keyword .returnKw :: between n.written ++ rest) rest
      (Node.returnValue l (some n)).Same := by
  refine reads_mark.bind fun start _ => reads_advance.bind fun _ _ =>
    reads_current.bind fun token kind => ?_
  have goesOn : ¬ endsReturn token.kind = true := by
    rw [kind]
    exact Bool.false_ne_true
  dsimp only
  rw [if_neg goesOn]
  refine ((value rest stops).map (R := fun value => ∃ m, value = some m ∧ n.Same m)
    fun m same => ⟨m, rfl, same⟩).bind ?_
  rintro _ ⟨m, rfl, same⟩
  exact (reads_since start).bind fun _ _ =>
    .pure (congrArg (fun m => Node.returnValue default (some m)) same)

/-! ## Lists -/

/-- Items that are written one after the other, each before a comma. -/
theorem reads_itemsUpTo {α γ : Type} {item : Parsing α} {close : Symbol}
    {write : γ → List TokenKind} {same : γ → α → Prop} {xs : List γ}
    (first : ∀ x ∈ xs, ∃ s kinds, write x = .symbol s :: kinds ∧ s ≠ close)
    (inner : ∀ x ∈ xs, ∀ rest, Reads item (write x ++ .symbol .comma :: rest)
      (.symbol .comma :: rest) (same x))
    (rest : List TokenKind) {k : Nat} (enough : xs.length < k) :
    Reads (itemsUpTo close item k)
      ((xs.flatMap fun x => write x ++ [.symbol .comma]) ++ .symbol close :: rest) rest
      fun as => List.Forall₂ same xs as := by
  induction xs generalizing k with
  | nil =>
    obtain ⟨k, rfl⟩ : ∃ j, k = j + 1 := ⟨k - 1, by omega⟩
    refine (reads_skipEols_symbol close).bind fun _ _ => (reads_at close).bind ?_
    rintro _ rfl
    rw [List.headD_cons, TokenKind.isSymbol, beq_self_eq_true, if_pos rfl]
    exact reads_advance.bind fun _ _ => .pure .nil
  | cons x xs ih =>
    obtain ⟨k, rfl⟩ : ∃ j, k = j + 1 := ⟨k - 1, by omega⟩
    obtain ⟨s, kinds, start, other⟩ := first x (by simp)
    have others := ih (fun y member => first y (by simp [member]))
      (fun y member => inner y (by simp [member])) (by simpa using enough)
    have here := inner x (by simp)
      ((xs.flatMap fun x => write x ++ [.symbol .comma]) ++ .symbol close :: rest)
    rw [List.flatMap_cons, List.append_assoc, List.append_assoc, List.singleton_append]
    rw [start, List.cons_append] at here ⊢
    refine (reads_skipEols_symbol s).bind fun _ _ => (reads_at close).bind ?_
    rintro _ rfl
    rw [List.headD_cons, TokenKind.isSymbol, beq_false_of_ne other, if_neg Bool.false_ne_true]
    refine here.bind fun a isSame => (reads_skipEols_symbol _).bind fun _ _ =>
      (reads_at .comma).bind ?_
    rintro _ rfl
    exact reads_advance.bind fun _ _ => others.bind fun as same => .pure (.cons isSame same)

theorem reads_items {α γ : Type} {item : Parsing α} {close : Symbol}
    {write : γ → List TokenKind} {same : γ → α → Prop} {xs : List γ}
    (first : ∀ x ∈ xs, ∃ s kinds, write x = .symbol s :: kinds ∧ s ≠ close)
    (inner : ∀ x ∈ xs, ∀ rest, Reads item (write x ++ .symbol .comma :: rest)
      (.symbol .comma :: rest) (same x)) (rest : List TokenKind) :
    Reads (items close item)
      ((xs.flatMap fun x => write x ++ [.symbol .comma]) ++ .symbol close :: rest) rest
      fun as => List.Forall₂ same xs as := by
  refine reads_remaining.bind fun k count => reads_itemsUpTo first inner rest ?_
  have fewer : xs.length ≤ (xs.flatMap fun x => write x ++ [TokenKind.symbol .comma]).length := by
    clear first inner count
    induction xs with
    | nil => exact Nat.le_refl 0
    | cons x xs ih =>
      simp only [List.length_cons, List.flatMap_cons, List.length_append]
      omega
  rw [count, List.length_append]
  omega

theorem writtenItems_eq (ns : List Node) :
    Node.writtenItems ns = ns.flatMap fun n => between n.written ++ [.symbol .comma] := by
  induction ns with
  | nil => rfl
  | cons n ns ih => rw [Node.writtenItems, List.flatMap_cons, ih, List.append_assoc,
      List.singleton_append]

/-- Trees between commas. -/
theorem reads_writtenItems {ns : List Node} (close : Symbol) (opens : .lparen ≠ close)
    (inner : ∀ n ∈ ns, g.ReadsBetween c n) (rest : List TokenKind) :
    Reads (items close (g.expression c)) (Node.writtenItems ns ++ .symbol close :: rest) rest
      (List.Forall₂ Node.Same ns) := by
  rw [writtenItems_eq]
  refine reads_items (fun n _ => ⟨.lparen, n.written ++ [.symbol .rparen], rfl, opens⟩) ?_ rest
  exact fun n member rest => inner n member _ rfl

/-- The tokens of a key and its value. -/
def writtenPair (p : Node × Node) : List TokenKind :=
  .symbol .lbracket :: between p.1.written ++ .symbol .rbracket :: .symbol .colon ::
    between p.2.written

theorem writtenPairs_eq (ps : List (Node × Node)) :
    Node.writtenPairs ps = ps.flatMap fun p => writtenPair p ++ [.symbol .comma] := by
  induction ps with
  | nil => rfl
  | cons p ps ih =>
    obtain ⟨key, value⟩ := p
    simp [Node.writtenPairs, writtenPair, ih]

theorem reads_property {p : Node × Node} (key : g.ReadsBetween c p.1)
    (value : g.ReadsBetween c p.2) (rest : List TokenKind) :
    Reads (g.property c) (writtenPair p ++ .symbol .comma :: rest) (.symbol .comma :: rest)
      (Node.SamePair p) := by
  have readKey := key
    (.symbol .rbracket :: .symbol .colon :: (between p.2.written ++ .symbol .comma :: rest)) rfl
  have readValue := value (.symbol .comma :: rest) rfl
  have kinds : writtenPair p ++ .symbol .comma :: rest =
      .symbol .lbracket :: (between p.1.written ++ .symbol .rbracket :: .symbol .colon ::
        (between p.2.written ++ .symbol .comma :: rest)) := by
    simp [writtenPair]
  rw [kinds]
  refine reads_current.bind fun token kind => ?_
  rw [kind]
  exact reads_advance.bind fun _ _ => readKey.bind fun _ sameKey => (reads_take _).bind fun _ _ =>
    (Reads.pure (Q := p.1.Same) sameKey).bind fun _ sameKey => (reads_take _).bind fun _ _ =>
      (reads_skipEols_symbol _).bind fun _ _ => readValue.bind fun _ sameValue =>
        .pure ⟨sameKey, sameValue⟩

theorem reads_array {ns : List Node} (l : Location) (inner : ∀ n ∈ ns, g.ReadsBetween c n)
    (stops : Stops rest) :
    Reads (g.assignment c) ((Node.array l ns).written ++ rest) rest (Node.array l ns).Same := by
  have elements := reads_writtenItems .rbracket Symbol.noConfusion inner rest
  have kinds : (Node.array l ns).written ++ rest =
      .symbol .lbracket :: (Node.writtenItems ns ++ .symbol .rbracket :: rest) := by
    simp [Node.written]
  rw [kinds]
  refine reads_of_operand (reads_current.bind fun token kind => ?_) rfl stops
  rw [kind]
  exact reads_mark.bind fun start _ => reads_advance.bind fun _ _ => elements.bind fun _ same =>
    (reads_since start).bind fun _ _ => .pure (congrArg (Node.array default) (Node.Same.all same))

theorem reads_object {ps : List (Node × Node)} (l : Location)
    (inner : ∀ p ∈ ps, g.ReadsBetween c p.1 ∧ g.ReadsBetween c p.2) (stops : Stops rest) :
    Reads (g.assignment c) ((Node.object l ps).written ++ rest) rest (Node.object l ps).Same := by
  have properties : Reads (items .rbrace (g.property c))
      (Node.writtenPairs ps ++ .symbol .rbrace :: rest) rest (List.Forall₂ Node.SamePair ps) := by
    rw [writtenPairs_eq]
    refine reads_items (fun p _ => ⟨.lbracket, _, rfl, Symbol.noConfusion⟩) ?_ rest
    exact fun p member rest => reads_property (inner p member).1 (inner p member).2 rest
  have kinds : (Node.object l ps).written ++ rest =
      .symbol .lbrace :: (Node.writtenPairs ps ++ .symbol .rbrace :: rest) := by
    simp [Node.written]
  rw [kinds]
  refine reads_of_operand (reads_current.bind fun token kind => ?_) rfl stops
  rw [kind]
  exact reads_mark.bind fun start _ => reads_advance.bind fun _ _ => properties.bind fun _ same =>
    (reads_since start).bind fun _ _ =>
      .pure (congrArg (Node.object default) (Node.SamePair.all same))

/-! ## Calls, indexing and assignments -/

theorem reads_call {ns : List Node} (l : Location) (callee : Located String)
    (inner : ∀ n ∈ ns, g.ReadsBetween c n) (stops : Stops rest) :
    Reads (g.assignment c) ((Node.call l callee ns).written ++ rest) rest
      (Node.call l callee ns).Same := by
  have args := reads_writtenItems .rparen Symbol.noConfusion inner rest
  have kinds : (Node.call l callee ns).written ++ rest = .name callee.item :: .symbol .lparen ::
      (Node.writtenItems ns ++ .symbol .rparen :: rest) := by
    simp [Node.written]
  have applied : Reads (g.applied c) ((Node.call l callee ns).written ++ rest) rest
      (Node.call l callee ns).Same := by
    rw [kinds]
    refine reads_mark.bind fun start _ => (reads_name callee.item).bind ?_
    rintro _ ⟨place, rfl⟩
    refine reads_remaining.bind ?_
    rintro _ rfl
    rw [List.length_cons, trailers]
    refine reads_current.bind fun token kind => ?_
    rw [kind]
    refine reads_advance.bind fun _ _ => args.bind fun _ same => (reads_since start).bind
      fun _ _ => (reads_trailers stops.detached start _ _).imp ?_
    rintro _ rfl
    exact congrArg (Node.call default ⟨callee.item, default⟩) (Node.Same.all same)
  exact reads_of_factor (reads_factor applied (by rw [kinds]; rfl)) stops

/-- An indexed value, whatever stands behind it, if that neither calls nor indexes it. -/
theorem reads_index {owner key : Node} (l : Location) (bare : g.ReadsBare c owner)
    (inner : g.ReadsBetween c key) (detached : Detached rest) :
    Reads (g.applied c) ((Node.index l owner key).written ++ rest) rest
      (Node.index l owner key).Same := by
  have readKey := inner (.symbol .rbracket :: rest) rfl
  have kinds : (Node.index l owner key).written ++ rest =
      between owner.written ++ .symbol .lbracket ::
        (between key.written ++ .symbol .rbracket :: rest) := by
    simp [Node.written]
  rw [kinds]
  refine reads_mark.bind fun start _ => (reads_operandBetween bare _).bind fun node same =>
    reads_remaining.bind ?_
  rintro _ rfl
  rw [List.length_cons, trailers]
  refine reads_current.bind fun token kind => ?_
  rw [kind]
  refine reads_advance.bind fun _ _ => readKey.bind fun _ sameKey => (reads_take _).bind
    fun _ _ => (reads_since start).bind fun _ _ => (reads_trailers detached start _ _).imp ?_
  rintro _ rfl
  exact congrArg₂ (Node.index default) same sameKey

/-- What is read before the sign of an assignment is assigned to. -/
theorem reads_assign {target value : Node} (l : Location)
    (applied : ∀ rest, Detached rest →
      Reads (g.applied c) (target.written ++ rest) rest target.Same)
    (plain : ∀ rest, unaryOp? ((target.written ++ rest).headD .eof) = none)
    (assignable : isTarget target = true) (inner : g.ReadsBetween c value) (stops : Stops rest) :
    Reads (g.assignment c) ((Node.assign l target value).written ++ rest) rest
      (Node.assign l target value).Same := by
  have readValue := inner rest stops
  have kinds : (Node.assign l target value).written ++ rest =
      target.written ++ .symbol .assign :: (between value.written ++ rest) := by
    simp [Node.written]
  have detached : Detached (.symbol .assign :: (between value.written ++ rest)) :=
    ⟨by simp, by simp⟩
  rw [kinds]
  refine reads_mark.bind fun start _ => (reads_chain_one (reads_comparison
    (reads_factor (applied _ detached) (plain _)) rfl rfl rfl) rfl).bind fun left same =>
      (reads_at _).bind ?_
  rintro _ rfl
  have assigned : isTarget left = true := by
    rw [← Node.isTarget_mapLoc (fun _ => default) left, ← assignable,
      ← Node.isTarget_mapLoc (fun _ => default) target]
    exact congrArg isTarget same
  dsimp only
  rw [assigned]
  exact reads_advance.bind fun _ _ => readValue.bind fun _ sameValue =>
    (reads_since start).bind fun _ _ => .pure (congrArg₂ (Node.assign default) same sameValue)

/-- The header of a counting loop is an assignment to its counter. -/
theorem reads_header {first : Node} (name : String) (inner : g.ReadsBetween c first)
    (stops : Stops rest) :
    Reads (g.assignment c) (.name name :: .symbol .assign :: (between first.written ++ rest)) rest
      fun m => ∃ l k value, m = .assign l (.name k name) value ∧ first.Same value := by
  have reads : Reads (g.assignment c)
      ((Node.assign default (.name default name) first).written ++ rest) rest
      (Node.assign default (.name default name) first).Same :=
    reads_assign default (fun rest detached => (reads_applied (reads_name name) detached).imp
      fun _ ⟨_, same⟩ => same ▸ rfl) (fun _ => rfl) rfl inner stops
  simp only [Node.written, List.append_assoc, List.cons_append] at reads
  refine reads.imp fun m same => ?_
  obtain ⟨l, target, value, rfl, sameTarget, sameValue⟩ := Node.eq_assign_of_erase same
  obtain ⟨k, rfl⟩ := Node.eq_name_of_erase sameTarget
  exact ⟨l, k, value, rfl, sameValue⟩

end Grammar

end Polyglot
