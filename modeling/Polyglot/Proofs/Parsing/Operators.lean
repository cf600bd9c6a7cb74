import Mathlib.Data.List.Induction
import Polyglot.Proofs.Parsing.Expressions
import Polyglot.Proofs.Progress

/-!
# Operators and their levels

Operands with operators between them are a flat sequence of tokens. They form one tree only if
operators are given levels: an operator joins what stands on its left down to its own level and what
stands on its right down to the next tighter one. For every sequence there is exactly one such tree,
and it is the one that the grammar reads and a descent that climbs by precedence comes to.
-/

namespace Polyglot

open Parsing

/-! ## Sequences of operands -/

/-- An operator between two operands. -/
inductive Operator
  | binary (op : BinaryOp)
  | logical (op : LogicalOp)
deriving DecidableEq, Inhabited

namespace Operator

def symbol : Operator → Symbol
  | binary op => op.symbol
  | logical op => op.symbol

/-- How tightly the operator binds. -/
def level : Operator → Nat
  | logical _ => 0
  | binary .eq | binary .ne | binary .lt | binary .gt | binary .le | binary .ge => 1
  | binary .add | binary .sub => 2
  | binary .mul | binary .div | binary .mod => 3

/-- The tree of the operator over its operands. -/
def node (left : Node) : Operator → Node → Node
  | binary op, right => .binary default left op right
  | logical op, right => .logical default left op right

theorem level_lt (op : Operator) : op.level < 4 := by
  rcases op with op | op
  · cases op <;> decide
  · exact Nat.zero_lt_succ 3

end Operator

/-- A name or a literal. -/
inductive Atom
  | name (s : String)
  | literal (value : Constant)

namespace Atom

def token : Atom → TokenKind
  | name s => .name s
  | literal value => value.token

def node : Atom → Node
  | name s => .name default s
  | literal value => .constant default value

end Atom

/-- An operand: a name or a literal after any number of prefix operators. -/
structure Factor where
  signs : List UnaryOp
  atom : Atom

namespace Factor

def kinds (f : Factor) : List TokenKind :=
  f.signs.map (fun op => .symbol op.symbol) ++ [f.atom.token]

/-- The first prefix operator applies last. -/
def node (f : Factor) : Node :=
  f.signs.foldr (Node.unary default) f.atom.node

end Factor

/-- The tokens of an operand and of those after it, each behind its operator. -/
def sequenceKinds (first : Factor) (rest : List (Operator × Factor)) : List TokenKind :=
  first.kinds ++ rest.flatMap fun next => .symbol next.1.symbol :: next.2.kinds

/-! ## Trees over operands -/

/-- A tree of operators over operands. -/
inductive Formula
  | factor (f : Factor)
  | join (left : Formula) (op : Operator) (right : Formula)

namespace Formula

/-- The leftmost operand. -/
def first : Formula → Factor
  | factor f => f
  | join left _ _ => left.first

/-- The other operands from left to right, each with the operator before it. -/
def rest : Formula → List (Operator × Factor)
  | factor _ => []
  | join left op right => left.rest ++ (op, right.first) :: right.rest

def node : Formula → Node
  | factor f => f.node
  | join left op right => op.node left.node right.node

def kinds (t : Formula) : List TokenKind :=
  sequenceKinds t.first t.rest

@[simp] theorem kinds_factor (f : Factor) : (factor f).kinds = f.kinds := by
  simp [kinds, sequenceKinds, first, rest]

@[simp] theorem kinds_join (left : Formula) (op : Operator) (right : Formula) :
    (join left op right).kinds = left.kinds ++ .symbol op.symbol :: right.kinds := by
  simp [kinds, sequenceKinds, first, rest]

/-- The trees of a level: operands at the tightest, and at any other the trees of the next tighter
level joined from the left by the operators of the level. -/
inductive Derives : Nat → Formula → Prop
  | factor (f : Factor) : Derives 4 (factor f)
  | single {k : Nat} {t : Formula} (tighter : Derives (k + 1) t) : Derives k t
  | join {k : Nat} {left right : Formula} {op : Operator} (level : op.level = k)
    (before : Derives k left) (after : Derives (k + 1) right) : Derives k (join left op right)

namespace Derives

variable {k : Nat} {t : Formula}

theorem ofFactor (f : Factor) (low : k ≤ 4) : Derives k (.factor f) := by
  induction low using Nat.decreasingInduction with
  | self => exact .factor f
  | of_succ k _ ih => exact .single ih

theorem le_four (derives : Derives k t) : k ≤ 4 := by
  induction derives with
  | factor f => exact Nat.le_refl 4
  | single _ ih => exact Nat.le_of_succ_le ih
  | @join k left right op level _ _ _ _ =>
    have := op.level_lt
    omega

/-- All operators of a tree bind as tightly as its level. -/
theorem le_level (derives : Derives k t) : ∀ next ∈ t.rest, k ≤ next.1.level := by
  induction derives with
  | factor f => simp [rest]
  | single _ ih =>
    intro next member
    exact Nat.le_of_succ_le (ih next member)
  | join level _ _ before after =>
    intro next member
    rcases List.mem_append.1 member with left | right
    · exact before next left
    · rcases List.mem_cons.1 right with rfl | later
      · exact level.ge
      · exact Nat.le_of_succ_le (after next later)

end Derives

/-! ## The tree of a sequence -/

/-- The tree with one more operand at its end: the operator takes over what stands before it down to
its own level. -/
def push (op : Operator) (f : Factor) : Formula → Formula
  | factor g => join (factor g) op (factor f)
  | join left o right =>
    if op.level ≤ o.level then join (join left o right) op (factor f)
    else join left o (right.push op f)

/-- The tree of a sequence of operands. -/
def ofSequence (first : Factor) (rest : List (Operator × Factor)) : Formula :=
  rest.foldl (fun t next => t.push next.1 next.2) (factor first)

theorem first_push (op : Operator) (f : Factor) (t : Formula) : (t.push op f).first = t.first := by
  induction t with
  | factor g => rfl
  | join left o right before _ =>
    unfold push
    split <;> rfl

theorem rest_push (op : Operator) (f : Factor) (t : Formula) :
    (t.push op f).rest = t.rest ++ [(op, f)] := by
  induction t with
  | factor g => rfl
  | join left o right _ after =>
    unfold push
    split
    · rfl
    · simp [rest, after, first_push]

theorem ofSequence_append (first : Factor) (rest : List (Operator × Factor)) (op : Operator)
    (f : Factor) : ofSequence first (rest ++ [(op, f)]) = (ofSequence first rest).push op f := by
  simp [ofSequence]

/-- Nothing is lost or moved. -/
theorem sequence_ofSequence (first : Factor) (rest : List (Operator × Factor)) :
    (ofSequence first rest).first = first ∧ (ofSequence first rest).rest = rest := by
  induction rest using List.reverseRecOn with
  | nil => exact ⟨rfl, rfl⟩
  | append_singleton rest next ih =>
    rw [ofSequence_append, first_push, rest_push, ih.1, ih.2]
    exact ⟨rfl, rfl⟩

section

variable {k : Nat} {t : Formula} {op : Operator}

/-- An operator that is not tighter than a tree takes the whole tree. -/
theorem Derives.push_loose (derives : Derives k t) (loose : op.level ≤ k) (f : Factor) :
    t.push op f = .join t op (.factor f) := by
  cases t with
  | factor g => rfl
  | join left o right =>
    have tight : k ≤ o.level := derives.le_level (o, right.first) (by simp [rest])
    exact if_pos (Nat.le_trans loose tight)

theorem Derives.push_tight (derives : Derives k t) (tight : k ≤ op.level) (f : Factor) :
    Derives k (t.push op f) := by
  induction derives with
  | factor g => exact absurd op.level_lt (by omega)
  | @single k t tighter ih =>
    by_cases same : op.level = k
    · rw [tighter.push_loose (by omega)]
      exact .join same (.single tighter) (.ofFactor f (by have := op.level_lt; omega))
    · exact .single (ih (by omega))
  | @join k left right o level before after _ ih =>
    unfold push
    by_cases same : op.level = k
    · rw [if_pos (by omega)]
      exact .join same (.join level before after) (.ofFactor f (by have := op.level_lt; omega))
    · rw [if_neg (by omega)]
      exact .join level before (ih (by omega))

end

theorem derives_ofSequence (first : Factor) (rest : List (Operator × Factor)) :
    Derives 0 (ofSequence first rest) := by
  induction rest using List.reverseRecOn with
  | nil => exact .ofFactor first (by decide)
  | append_singleton rest next ih =>
    rw [ofSequence_append]
    exact ih.push_tight (Nat.zero_le _) next.2

/-- Operators that are tighter than the last one before them stay on its right. -/
theorem foldl_push_join {left right : Formula} {op : Operator} {rest : List (Operator × Factor)}
    (tight : ∀ next ∈ rest, op.level < next.1.level) :
    rest.foldl (fun t next => t.push next.1 next.2) (join left op right) =
      join left op (rest.foldl (fun t next => t.push next.1 next.2) right) := by
  induction rest generalizing right with
  | nil => rfl
  | cons next rest ih =>
    have first : op.level < next.1.level := tight next (by simp)
    have later : ∀ next ∈ rest, op.level < next.1.level :=
      fun next member => tight next (by simp [member])
    rw [List.foldl_cons, List.foldl_cons, push, if_neg (by omega), ih later]

/-- A tree of the levels is the tree of its sequence. -/
theorem Derives.eq_ofSequence {k : Nat} {t : Formula} (derives : Derives k t) :
    t = ofSequence t.first t.rest := by
  induction derives with
  | factor f => rfl
  | single _ ih => exact ih
  | @join k left right op level before after beforeIh afterIh =>
    have tight : ∀ next ∈ right.rest, op.level < next.1.level := by
      intro next member
      have := after.le_level next member
      omega
    calc Formula.join left op right
      _ = .join left op (ofSequence right.first right.rest) := by rw [← afterIh]
      _ = right.rest.foldl (fun t next => t.push next.1 next.2)
            (.join left op (.factor right.first)) := (foldl_push_join tight).symm
      _ = right.rest.foldl (fun t next => t.push next.1 next.2) (left.push op right.first) := by
        rw [before.push_loose level.le]
      _ = ofSequence (Formula.join left op right).first (Formula.join left op right).rest := by
        rw [first, rest, ofSequence, List.foldl_append, List.foldl_cons, ← ofSequence, ← beforeIh]

end Formula

/-! ## Reading one level -/

namespace Grammar

open Formula

/-- No operator of the level or a tighter one comes next, and nothing that belongs to an operand. -/
structure Follows (k : Nat) (rest : List TokenKind) : Prop where
  looser : ∀ op : Operator, rest.headD .eof = .symbol op.symbol → op.level < k
  detached : Detached rest

theorem Follows.mono {k j : Nat} {rest : List TokenKind} (follows : Follows k rest) (le : k ≤ j) :
    Follows j rest :=
  ⟨fun op next => Nat.lt_of_lt_of_le (follows.looser op next) le, follows.detached⟩

theorem symbol_injective {op other : Operator} (same : op.symbol = other.symbol) : op = other := by
  rcases op with op | op <;> rcases other with other | other <;> cases op <;> cases other <;>
    first | rfl | cases same

/-- After an operand of an operator comes the operator. -/
theorem follows_operator (op : Operator) (rest : List TokenKind) :
    Follows (op.level + 1) (.symbol op.symbol :: rest) := by
  refine ⟨fun other next => ?_, ?_⟩
  · injection next with same
    rw [symbol_injective same]
    exact Nat.lt_succ_self _
  · rcases op with op | op
    · exact detached_binary op rest
    · exact detached_logical op rest

/-- The parser reads the trees of the level. -/
def ReadsLevel (k : Nat) (p : Parsing Node) : Prop :=
  ∀ t, Derives k t → ∀ rest, Follows k rest →
    Reads p (t.kinds ++ rest) rest fun m => m.erase = t.node

variable {g : Grammar} {c : Context} {rest : List TokenKind}

theorem reads_operandAtom (atom : Atom) :
    Reads (g.operand c) (atom.token :: rest) rest fun m => m.erase = atom.node := by
  refine reads_current.bind fun token kind => ?_
  rw [kind]
  cases atom with
  | name s => exact reads_single fun _ => rfl
  | literal value =>
    cases value with
    | bool b => cases b <;> exact reads_single fun _ => rfl
    | _ => exact reads_single fun _ => rfl

theorem unaryOp?_atom (atom : Atom) : unaryOp? atom.token = none := by
  cases atom with
  | name s => rfl
  | literal value =>
    cases value with
    | bool b => cases b <;> rfl
    | _ => rfl

/-- Prefix operators are read from the first one on. -/
theorem reads_signed {operand : Parsing Node} {atom : Atom}
    (inner : Reads operand (atom.token :: rest) rest fun m => m.erase = atom.node)
    (signs : List UnaryOp) {k : Nat} (enough : signs.length ≤ k) :
    Reads (signed operand k) ((Factor.mk signs atom).kinds ++ rest) rest
      fun m => m.erase = (Factor.mk signs atom).node := by
  induction signs generalizing k with
  | nil =>
    cases k with
    | zero => exact inner
    | succ k =>
      refine reads_current.bind fun token kind => ?_
      have plain : unaryOp? token.kind = none := by
        rw [kind]
        exact unaryOp?_atom atom
      rw [plain]
      exact inner
  | cons op signs ih =>
    obtain ⟨k, rfl⟩ : ∃ j, k = j + 1 := ⟨k - 1, by simp at enough; omega⟩
    refine reads_current.bind fun token kind => ?_
    have known : unaryOp? token.kind = some op := by
      rw [kind]
      cases op <;> rfl
    rw [known]
    exact reads_mark.bind fun start _ => reads_advance.bind fun _ _ =>
      (ih (by simpa using enough)).bind fun _ same => (reads_since start).bind fun _ _ =>
        .pure (congrArg (Node.unary default op) same)

/-- The trees of the tightest level are the operands. -/
theorem readsLevel_factor : ReadsLevel 4 (g.factor c) := by
  intro t derives rest follows
  cases derives with
  | factor f =>
    rw [kinds_factor]
    have inner := reads_applied (g := g) (c := c) (reads_operandAtom f.atom) follows.detached
    refine reads_remaining.bind fun k count => reads_signed inner f.signs ?_
    simp [count, Factor.kinds]
  | single tighter => exact absurd tighter.le_four (by decide)
  | join _ _ after => exact absurd after.le_four (by decide)

section Level

variable {α : Type} {k : Nat} {op? : TokenKind → Option α} {wrap : α → Operator}
  {combine : Location → Node → α → Node → Node} {operand : Parsing Node}

/-- The operators that are looked for are those of the level. -/
structure IsLevel (k : Nat) (op? : TokenKind → Option α) (wrap : α → Operator)
    (combine : Location → Node → α → Node → Node) : Prop where
  known : ∀ op : Operator, op.level = k → ∃ a, wrap a = op ∧ op? (.symbol op.symbol) = some a
  only : ∀ kind a, op? kind = some a → kind = .symbol (wrap a).symbol ∧ (wrap a).level = k
  erase : ∀ l left a right,
    (combine l left a right).erase = (wrap a).node left.erase right.erase

/-- A tree of the next tighter level is the first operand of a chain. -/
theorem reads_chain_first (inner : ReadsLevel (k + 1) operand) {t : Formula}
    (tighter : Derives (k + 1) t) {final : List TokenKind} {Q : Node → Prop}
    (follows : Follows (k + 1) rest)
    (onward : ∀ start n left, rest.length ≤ n → left.erase = t.node →
      Reads (chainRest op? combine operand start n left) rest final Q) :
    Reads (chain op? combine operand) (t.kinds ++ rest) final Q :=
  reads_mark.bind fun start _ => (inner t tighter rest follows).bind fun left same =>
    reads_remaining.bind fun n count => onward start n left count.ge same

/-- A tree of the level is read from the left; what comes after it is up to the rest of the chain,
which goes on with the tree as its left side. -/
theorem IsLevel.reads_chain (level : IsLevel k op? wrap combine)
    (inner : ReadsLevel (k + 1) operand) {t : Formula} (derives : Derives k t) (low : k < 4)
    {final : List TokenKind} {Q : Node → Prop} (follows : Follows (k + 1) rest)
    (onward : ∀ start n left, rest.length ≤ n → left.erase = t.node →
      Reads (chainRest op? combine operand start n left) rest final Q) :
    Reads (chain op? combine operand) (t.kinds ++ rest) final Q := by
  induction t generalizing rest with
  | factor f =>
    cases derives with
    | factor => exact absurd low (by decide)
    | single tighter => exact reads_chain_first inner tighter follows onward
  | join l op r ih _ =>
    cases derives with
    | single tighter => exact reads_chain_first inner tighter follows onward
    | join same before after =>
      subst same
      obtain ⟨a, wrapped, known⟩ := level.known op rfl
      rw [kinds_join, List.append_assoc, List.cons_append]
      refine ih before (follows_operator op _) fun start n left enough isLeft => ?_
      -- The chain goes on with the operator, and once more with what this makes of its left side.
      obtain ⟨n, rfl⟩ : ∃ j, n = j + 1 := ⟨n - 1, by simp at enough; omega⟩
      refine reads_current.bind fun token kind => ?_
      rw [kind, List.headD_cons, known]
      refine reads_advance.bind fun _ _ => (inner r after rest follows).bind fun right isRight =>
        (reads_since start).bind fun l _ => onward start n _ ?_ ?_
      · simp at enough
        omega
      · rw [level.erase, wrapped, isLeft, isRight]
        rfl

theorem IsLevel.reads (level : IsLevel k op? wrap combine) (low : k < 4)
    (inner : ReadsLevel (k + 1) operand) : ReadsLevel k (chain op? combine operand) := by
  intro t derives rest follows
  have ends : op? (rest.headD .eof) = none := by
    cases found : op? (rest.headD .eof) with
    | none => rfl
    | some a =>
      obtain ⟨next, same⟩ := level.only _ a found
      exact absurd (follows.looser _ next) (by omega)
  refine level.reads_chain inner derives low (follows.mono (Nat.le_succ k)) ?_
  intro start n left _ same
  exact (reads_chainRest ends start n left).imp fun _ read => read ▸ same

end Level

theorem isLevel_product : IsLevel 3 productOp? .binary .binary where
  known op level := by
    rcases op with op | op <;> cases op <;> cases level <;> exact ⟨_, rfl, rfl⟩
  only kind a found := by
    unfold productOp? at found
    split at found <;> cases found <;> exact ⟨rfl, rfl⟩
  erase _ _ _ _ := rfl

theorem isLevel_sum : IsLevel 2 sumOp? .binary .binary where
  known op level := by
    rcases op with op | op <;> cases op <;> cases level <;> exact ⟨_, rfl, rfl⟩
  only kind a found := by
    unfold sumOp? at found
    split at found <;> cases found <;> exact ⟨rfl, rfl⟩
  erase _ _ _ _ := rfl

theorem isLevel_comparison : IsLevel 1 comparisonOp? .binary .binary where
  known op level := by
    rcases op with op | op <;> cases op <;> cases level <;> exact ⟨_, rfl, rfl⟩
  only kind a found := by
    unfold comparisonOp? at found
    split at found <;> cases found <;> exact ⟨rfl, rfl⟩
  erase _ _ _ _ := rfl

theorem isLevel_logical : IsLevel 0 logicalOp? .logical .logical where
  known op level := by
    rcases op with op | op <;> cases op <;> cases level <;> exact ⟨_, rfl, rfl⟩
  only kind a found := by
    unfold logicalOp? at found
    split at found <;> cases found <;> exact ⟨rfl, rfl⟩
  erase _ _ _ _ := rfl

/-- The grammar reads the trees of the loosest level. -/
theorem readsLevel_logical : ReadsLevel 0 (g.logical c) :=
  isLevel_logical.reads (by decide) <| isLevel_comparison.reads (by decide) <|
    isLevel_sum.reads (by decide) <| isLevel_product.reads (by decide) readsLevel_factor

/-! ## Expressions -/

/-- A statement may end here: at the end of a line or of the script, at a semicolon or at the brace
that closes a block. -/
def EndsStatement (rest : List TokenKind) : Prop :=
  rest.headD .eof = .eol ∨ rest.headD .eof = .eof ∨ rest.headD .eof = .symbol .semi ∨
    rest.headD .eof = .symbol .rbrace

theorem EndsStatement.symbol {s : Symbol} (ends : EndsStatement rest)
    (next : rest.headD .eof = .symbol s) : s = .semi ∨ s = .rbrace := by
  unfold EndsStatement at ends
  rw [next] at ends
  simpa using ends

theorem EndsStatement.follows (ends : EndsStatement rest) : Follows 0 rest := by
  refine ⟨fun op next => ?_, ⟨fun next => ?_, fun next => ?_⟩⟩
  · rcases op with op | op <;> cases op <;>
      rcases ends.symbol next with same | same <;> cases same
  · rcases ends.symbol next with same | same <;> cases same
  · rcases ends.symbol next with same | same <;> cases same

theorem EndsStatement.unassigned (ends : EndsStatement rest) :
    (rest.headD .eof).isSymbol .assign = false := by
  rcases ends with next | next | next | next <;> rw [next] <;> rfl

end Grammar

/-! ## Descents -/

/-- The kinds of the tokens ahead. -/
def Parser.kindsAhead (s : Parser) : List TokenKind :=
  (s.tokens.toList.drop s.index).map Token.kind

theorem Parser.On.kindsAhead {s : Parser} {c : Context} {t : Tape} (on : s.On c t) :
    s.kindsAhead = t.rest.map Token.kind ++ [.eof] := by
  rw [Parser.kindsAhead, on.ahead, List.map_append, List.map_singleton, on.closed]

/-- A descent into an expression comes to what the grammar reads. -/
theorem Descent.comes_of_reads {s : Parser} (closed : s.Closed) {kinds rest : List TokenKind}
    {Q : Node → Prop} (ahead : s.kindsAhead = kinds ++ [.eof])
    (reads : ∀ depth c, Reads ((Grammar.upTo (depth + 1)).expression c) kinds rest Q) :
    ∃ node s', Descent.Comes Descent.expression s (.ok node, s') ∧ s.Kept s' ∧
      s'.kindsAhead = rest ++ [.eof] ∧ Q node := by
  obtain ⟨t, on⟩ := closed.exists_on
  have shows : t.Shows kinds := by
    refine ⟨?_, on.closed⟩
    rw [on.kindsAhead] at ahead
    exact List.append_cancel_right ahead
  have along := (Grammar.descends_upTo (t.rest.length + 1)).expression on (Nat.lt_succ_self _)
  obtain ⟨node, u, run, left, holds⟩ := reads (2 * t.rest.length + 1) s.context t shows
  -- The grammar has accepted, so the descent has as well.
  have run' : ((Grammar.upTo (2 * (t.rest.length + 1))).expression s.context).run t =
      .ok (node, u) := run
  rw [Along, run'] at along
  cases along with
  | @accepted _ s' _ comes on' kept _ =>
    refine ⟨node, s', comes, kept, ?_, holds⟩
    rw [on'.kindsAhead, left.kinds]

/-- Operands joined by operators are read as the one tree that four left-associative levels allow,
however many there are and whatever operators stand between them: exactly one tree of the levels has
these operands and operators in this order, and before the end of a statement an expression takes
all of them and nothing else, and is that tree but for locations. So it is by the grammar, and so it
is by descent from wherever these are the tokens ahead, where operators are told apart by climbing
over their precedences. -/
theorem operators_read_by_level (first : Factor) (rest : List (Operator × Factor)) :
    ∃ t : Formula, (t.Derives 0 ∧ t.first = first ∧ t.rest = rest) ∧
      (∀ other : Formula, other.Derives 0 ∧ other.first = first ∧ other.rest = rest → other = t) ∧
      (∀ depth c ending, Grammar.EndsStatement ending →
        Reads ((Grammar.upTo (depth + 1)).expression c) (sequenceKinds first rest ++ ending) ending
          fun node => node.erase = t.node) ∧
      ∀ (s : Parser) ending, s.Closed → Grammar.EndsStatement ending →
        s.kindsAhead = sequenceKinds first rest ++ ending ++ [.eof] →
        ∃ node s', Descent.Comes Descent.expression s (.ok node, s') ∧ s.Kept s' ∧
          s'.kindsAhead = ending ++ [.eof] ∧ node.erase = t.node := by
  obtain ⟨sameFirst, sameRest⟩ := Formula.sequence_ofSequence first rest
  have derives := Formula.derives_ofSequence first rest
  have reads : ∀ depth c ending, Grammar.EndsStatement ending →
      Reads ((Grammar.upTo (depth + 1)).expression c) (sequenceKinds first rest ++ ending) ending
        fun node => node.erase = (Formula.ofSequence first rest).node := by
    intro depth c ending ends
    have logical : Reads ((Grammar.upTo depth).logical c) (sequenceKinds first rest ++ ending)
        ending fun node => node.erase = (Formula.ofSequence first rest).node := by
      have reads := Grammar.readsLevel_logical (g := .upTo depth) (c := c) _ derives ending
        ends.follows
      rwa [Formula.kinds, sameFirst, sameRest] at reads
    exact Grammar.reads_unassigned logical ends.unassigned
  refine ⟨.ofSequence first rest, ⟨derives, sameFirst, sameRest⟩, ?_, reads, ?_⟩
  · intro other ⟨derived, isFirst, isRest⟩
    rw [derived.eq_ofSequence, isFirst, isRest]
  · intro s ending closed ends ahead
    exact Descent.comes_of_reads closed ahead fun depth c => reads depth c ending ends

/-- The operands and operators of the script `a - -b - c * 2 || !d < e`. -/
def mixedSequence : List (Operator × Factor) :=
  [(.binary .sub, ⟨[.neg], .name "b"⟩), (.binary .sub, ⟨[], .name "c"⟩),
    (.binary .mul, ⟨[], .literal (.int 2)⟩), (.logical .or, ⟨[.not], .name "d"⟩),
    (.binary .lt, ⟨[], .name "e"⟩)]

/-- The tree `((a - (-b)) - (c * 2)) || ((!d) < e)`. -/
def mixedTree : Node :=
  .logical default
    (.binary default
      (.binary default (.name default "a") .sub (.unary default .neg (.name default "b"))) .sub
      (.binary default (.name default "c") .mul (.constant default (.int 2))))
    .or (.binary default (.unary default .not (.name default "d")) .lt (.name default "e"))

/-- A parser before that script and a semicolon. -/
def mixedParser : Parser where
  tokens :=
    let kinds : List TokenKind := sequenceKinds ⟨[], .name "a"⟩ mixedSequence ++ [.symbol .semi]
    (kinds.map fun kind => ⟨kind, "", default⟩).toArray.push ⟨.eof, "", default⟩
  dictionary := .english

/-- The script is that tree, by the grammar and by descent. -/
theorem operators_read_by_level_mixed :
    Grammar.EndsStatement [.symbol .semi] ∧ mixedParser.Closed ∧
    Reads ((Grammar.upTo 1).expression { dictionary := .english })
      (sequenceKinds ⟨[], .name "a"⟩ mixedSequence ++ [.symbol .semi]) [.symbol .semi]
      (fun node => node.erase = mixedTree) ∧
    ∃ node s', Descent.Comes Descent.expression mixedParser (.ok node, s') ∧
      mixedParser.Kept s' ∧ s'.kindsAhead = [.symbol .semi, .eof] ∧ node.erase = mixedTree := by
  have ends : Grammar.EndsStatement [.symbol .semi] := .inr (.inr (.inl rfl))
  have closed : mixedParser.Closed := by
    refine ⟨⟨mixedParser.tokens.toList.dropLast, ⟨.eof, "", default⟩, rfl, rfl, ?_⟩, by decide⟩
    simp [mixedParser, sequenceKinds, mixedSequence, Factor.kinds, Atom.token, Constant.token]
  obtain ⟨t, -, unique, reads, descends⟩ := operators_read_by_level ⟨[], .name "a"⟩ mixedSequence
  have tree := unique _ ⟨Formula.derives_ofSequence _ _, Formula.sequence_ofSequence _ _⟩
  rw [← tree] at reads descends
  exact ⟨ends, closed, reads 0 _ _ ends, descends mixedParser _ closed ends rfl⟩

end Polyglot
