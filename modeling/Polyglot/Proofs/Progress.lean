import Polyglot.Proofs.Lexing.Tokens
import Polyglot.Proofs.Parsing.Climbing
import Polyglot.Proofs.Parsing.Following

/-!
# Descents come to their end

From wherever a parser stands before the end of its tokens, every rule comes to an end: there is a
depth from which on it is not cut off, and at no depth does it ask for a token that is not there or
close what is not open. What it accepts has taken a token, and leaves as many loops and blocks open
as there were. A whole script that is accepted has been taken up to its end, and it is the one that
the grammar accepts.
-/

namespace Polyglot

open Descent

variable {α : Type} {s : Parser} {c : Context} {t : Tape}

namespace Grammar

/-! ## Expressions and statements -/

section

variable {g : Grammar} {n : Nat} (descends : g.Descends n)

include descends

theorem along_assignment (on : s.On c t) (short : t.rest.length ≤ n) :
    Along Descent.expression (g.assignment c) s c t := by
  refine .deeper rfl ?_
  simp only [Descent.expression]
  refine .markBind on ?_
  refine (along_logical descends on short).bind ?_
  intro left s₁ u₁ on₁ left₁
  refine .atBind on₁ ?_
  intro found isThere
  cases found with
  | false => exact .pure on₁ left₁ left
  | true =>
    cases isTarget left with
    | false => exact .reject _ _
    | true =>
      refine (Tracked.advanceOver on₁ isThere).bind ?_
      intro _ s₂ u₂ on₂ left₂
      refine (descends.expression on₂ (by omega)).bind ?_
      intro value s₃ u₃ on₃ left₃
      exact .made on₃ (by omega)

omit descends in
theorem tracked_endStatement (on : s.On c t) (expr : Node) :
    Tracked s c (Tape.Under (t.rest.length + 1)) (fun _ => Descent.endStatement expr)
      ((endStatement c expr).run t) := by
  have otherwise (kind : TokenKind) : Tracked s c (Tape.Under (t.rest.length + 1))
      (fun _ => do
        let p ← get
        if kind.isSymbol .rbrace && 0 < p.blockDepth then return
        else Descent.unexpected .endOfStatement (misspelled { dictionary := p.dictionary } expr))
      ((if kind.isSymbol .rbrace && c.inBlock then return
        else Parsing.unexpected .endOfStatement (misspelled c expr) : Parsing Unit).run t) := by
    refine .congr (fun _ => Descent.outcome_get_bind _ s) ?_
    rw [on.inBlock, on.dictionary]
    split
    · exact .pure on (by omega) _
    · exact .unexpected on _ _
  refine .currentBind on ?_
  cases kind : t.current.kind with
  | symbol symbol =>
    cases symbol with
    | semi => exact (Descent.tracked_advanceAnyway on)
    | _ => exact otherwise _
  | eol => exact (Descent.tracked_advanceAnyway on)
  | eof => exact .pure on (by omega) _
  | _ => exact otherwise _

theorem along_instruction (on : s.On c t) (short : t.rest.length ≤ n)
    (expression : Along Descent.expression (g.expression c) s c t) :
    Along Descent.statement (g.instruction c) s c t := by
  have otherwise : Along
      (fun n => do
        let start ← Descent.mark
        let expr ← Descent.expression n
        let loc ← Descent.since start
        Descent.endStatement expr
        return Node.statement loc expr)
      (do
        let start ← Parsing.mark
        let expr ← g.expression c
        let loc ← Parsing.since start
        endStatement c expr
        return Node.statement loc expr) s c t := by
    refine .markBind on ?_
    refine expression.bind ?_
    intro expr s₁ u₁ on₁ left₁
    refine .sinceBind on₁ fun loc => ?_
    refine (tracked_endStatement on₁ expr).bind ?_
    intro _ s₂ u₂ on₂ left₂
    exact .pure on₂ (by omega) _
  refine .deeper rfl ?_
  simp only [Descent.statement]
  refine .currentBind on ?_
  cases t.current.kind with
  | symbol symbol =>
    cases symbol with
    | lbrace => exact along_block descends on short
    | _ => exact otherwise
  | keyword k =>
    cases k with
    | ifKw => exact along_conditional descends on short
    | whileKw => exact along_whileLoop descends on short false
    | forKw => exact along_forLoop descends on short false
    | _ => exact otherwise
  | _ => exact otherwise

/-- Unrolling the rules twice reaches a token further. -/
theorem descends_unroll_unroll : g.unroll.unroll.Descends (n + 1) := by
  have once : g.unroll.Descends n := by
    refine ⟨?_, ?_⟩
    · intro s c t on short
      exact along_assignment descends on (Nat.le_of_lt short)
    · intro s c t on short
      exact along_instruction descends on (Nat.le_of_lt short) (descends.expression on short)
  refine ⟨?_, ?_⟩
  · intro s c t on short
    exact along_assignment once on (Nat.le_of_lt_succ short)
  · intro s c t on short
    exact along_instruction once on (Nat.le_of_lt_succ short)
      (along_assignment descends on (Nat.le_of_lt_succ short))

end

theorem descends_upTo (n : Nat) : (upTo (2 * n)).Descends n := by
  induction n with
  | zero => exact ⟨fun _ short => absurd short (Nat.not_lt_zero _),
      fun _ short => absurd short (Nat.not_lt_zero _)⟩
  | succ n ih => exact descends_unroll_unroll ih

/-! ## Programs -/

/-- Statements are taken up to the end. -/
theorem tracked_programUpTo {q : Parsing Node} {n : Nat}
    (inner : ∀ {s t}, s.On c t → t.rest.length ≤ n → Along Descent.statement q s c t)
    (k : Nat) (on : s.On c t) (short : t.rest.length ≤ n) (enough : t.rest.length < k) :
    Tracked s c (fun u => u.rest = []) Descent.program ((programUpTo q k).run t) := by
  induction k generalizing s t with
  | zero => omega
  | succ k ih =>
    have others {s u} (on : s.On c u) (left : u.rest.length ≤ t.rest.length) :
        Tracked s c (fun u => u.rest = [])
          (fun n => do
            let first ← Descent.statement n
            return first :: (← Descent.program n))
          ((do
            let first ← q
            return first :: (← programUpTo q k) : Parsing _).run u) := by
      refine (inner on (by omega)).bind ?_
      intro first s₂ u₂ on₂ left₂
      refine (ih on₂ (by omega) (by omega)).bind ?_
      intro rest s₃ u₃ on₃ ended
      exact .pure on₃ ended _
    refine .deeper rfl ?_
    simp only [Descent.program]
    refine (Descent.tracked_skipSeparators on).bind ?_
    intro _ s₁ u₁ on₁ left₁
    refine .currentBind on₁ ?_
    cases kind : u₁.current.kind with
    | eof => exact .pure on₁ (on₁.nil_of_kind kind) _
    | _ => exact others on₁ (Nat.le_of_lt_succ left₁)

/-- A script is accepted with what the grammar makes of it, or rejected as the grammar does. -/
theorem tracked_program {d : Dictionary} (on : s.On { dictionary := d } t) :
    Tracked s { dictionary := d } (fun u => u.rest = []) Descent.program ((program d).run t) := by
  rw [run_program]
  have descends : (upTo (2 * t.rest.length + 2)).Descends (t.rest.length + 1) :=
    descends_upTo (t.rest.length + 1)
  exact tracked_programUpTo (fun on' short => descends.statement on' (Nat.lt_succ_of_le short)) _ on
    (Nat.le_refl _) (Nat.lt_succ_self _)

end Grammar

/-! ## Parsers before the end of their tokens -/

/-- The tokens end with their only end of a script, and the parser stands at a token. -/
structure Parser.Closed (s : Parser) : Prop where
  ends : ∃ front eof, s.tokens.toList = front ++ [eof] ∧ eof.kind = .eof ∧
    ∀ token ∈ front, token.kind ≠ .eof
  inside : s.index < s.tokens.size

/-- The context that tells what a parser has open. -/
def Parser.context (s : Parser) : Context where
  dictionary := s.dictionary
  inLoop := decide (0 < s.loopDepth)
  inBlock := decide (0 < s.blockDepth)

theorem Parser.Closed.exists_on (closed : s.Closed) : ∃ t, s.On s.context t := by
  obtain ⟨⟨front, eof, tokens, isEof, proper⟩, inside⟩ := closed
  have before : s.index ≤ front.length := by
    rw [← Array.length_toList, tokens, List.length_append, List.length_singleton] at inside
    omega
  refine ⟨⟨front.drop s.index, eof, s.readTo⟩, ?_, isEof, ?_, rfl, rfl, rfl, rfl⟩
  · rw [tokens, List.drop_append_of_le_length before]
  · intro token member
    exact proper token (List.mem_of_mem_drop member)

/-! ## Progress -/

namespace Descent

/-- The descent comes to an end and does not crash. If it accepts what it reads, it leaves as many
loops and blocks open as there were and stands where `P` says. -/
def Ends (p : Nat → Descent α) (s : Parser) (P : Parser → Prop) : Prop :=
  ∃ result s', Comes p s (result, s') ∧ ∀ a, result = .ok a → s.Kept s' ∧ P s'

/-- What the descent accepts has taken a token, but not the end. -/
def Progresses (p : Nat → Descent α) (s : Parser) : Prop :=
  Ends p s fun s' => s.index < s'.index ∧ s'.index < s'.tokens.size

/-- What the descent accepts may have taken no token, and has not taken the end. -/
def GoesOn (p : Nat → Descent α) (s : Parser) : Prop :=
  Ends p s fun s' => s.index ≤ s'.index ∧ s'.index < s'.tokens.size

end Descent

/-- A parser that goes on is as many tokens further as there are fewer ahead. -/
theorem Parser.On.moved {s' : Parser} {u : Tape} (on : s.On c t) (on' : s'.On c u)
    (kept : s.Kept s') :
    s'.index + u.rest.length = s.index + t.rest.length ∧ s'.index < s'.tokens.size := by
  have size := on.size
  have size' := on'.size
  rw [kept.tokens] at size' ⊢
  omega

theorem Parser.On.last (on : s.On c t) (ended : t.rest = []) : s.index + 1 = s.tokens.size := by
  have size := on.size
  rw [ended] at size
  exact size

namespace Tracked

variable {Q : Tape → Prop} {p : Nat → Descent α} {result : Except CompileError (α × Tape)}

theorem ends {P : Parser → Prop} (tracked : Tracked s c Q p result)
    (stands : ∀ s' u, s'.On c u → s.Kept s' → Q u → P s') : Descent.Ends p s P := by
  cases tracked with
  | @accepted a s' u comes on kept holds =>
    exact ⟨.ok a, s', comes, fun _ _ => ⟨kept, stands s' u on kept holds⟩⟩
  | @rejected e s' comes =>
    refine ⟨.error e, s', comes, ?_⟩
    intro a accepted
    cases accepted

/-- Fewer tokens ahead means that the parser has gone on. -/
theorem progresses (tracked : Tracked s c (Tape.Under t.rest.length) p result) (on : s.On c t) :
    Descent.Progresses p s := by
  refine tracked.ends ?_
  intro s' u on' kept fewer
  obtain ⟨moved, inside⟩ := on.moved on' kept
  exact ⟨by omega, inside⟩

theorem goesOn (tracked : Tracked s c (Tape.Under (t.rest.length + 1)) p result) (on : s.On c t) :
    Descent.GoesOn p s := by
  refine tracked.ends ?_
  intro s' u on' kept fewer
  obtain ⟨moved, inside⟩ := on.moved on' kept
  exact ⟨by omega, inside⟩

end Tracked

/-! ## Scripts -/

/-- A parser at the start of a script that was read. -/
theorem Parser.ofReading_of_tokens {r : Reading} {tokens : List Token}
    (read : r.tokens = .ok tokens) :
    ofReading r = .ok { tokens := (tokens ++ [r.eof]).toArray, dictionary := r.dictionary } := by
  unfold ofReading
  rw [read]
  rfl

/-- A script that cannot be read is rejected before any descent. -/
theorem Program.ofReading_of_error {r : Reading} {e : CompileError}
    (faulty : Parser.ofReading r = .error e) (name source : String) :
    ofReading name source r = .error e := by
  unfold Parser.ofReading at faulty
  unfold ofReading
  cases found : r.tokens with
  | error e' =>
    rw [found] at faulty
    cases faulty
    rfl
  | ok tokens =>
    rw [found] at faulty
    cases faulty

/-- A script is formed by a descent through its tokens. -/
theorem Program.exists_descent {r : Reading} {start : Parser}
    (read : Parser.ofReading r = .ok start) (closed : r.eof.kind = .eof)
    (proper : ∀ tokens, r.tokens = .ok tokens → ∀ token ∈ tokens, token.kind ≠ .eof)
    (name source : String) :
    start.Closed ∧ ∃ result s', Descent.Comes Descent.program start (result, s') ∧
      ofReading name source r = result.map (fun body => ⟨name, source, body⟩) ∧
      ∀ body, result = .ok body → s'.index + 1 = s'.tokens.size := by
  cases found : r.tokens with
  | error e =>
    unfold Parser.ofReading at read
    rw [found] at read
    cases read
  | ok tokens =>
    rw [Parser.ofReading_of_tokens found] at read
    cases read
    have on : Parser.On { tokens := (tokens ++ [r.eof]).toArray, dictionary := r.dictionary }
        { dictionary := r.dictionary } { rest := tokens, eof := r.eof } :=
      ⟨rfl, closed, proper tokens found, rfl, rfl, rfl, rfl⟩
    have tracked := Grammar.tracked_program on
    refine ⟨⟨⟨tokens, r.eof, rfl, closed, proper tokens found⟩, by simp⟩, ?_⟩
    rw [ofReading_of_tokens found]
    generalize (Grammar.program _).run _ = y at tracked
    cases tracked with
    | @accepted body s' u comes on' _ ended =>
      exact ⟨.ok body, s', comes, rfl, fun _ _ => on'.last ended⟩
    | @rejected e s' comes =>
      refine ⟨.error e, s', comes, rfl, ?_⟩
      intro body accepted
      cases accepted

namespace Descent

/-- Every rule comes to an end wherever a parser stands before the end of its tokens, and what it
accepts has taken a token. So do the loops inside the rules, which may take none, and the descent
through a script. -/
theorem every_rule_progresses :
    (∀ s : Parser, s.Closed →
      Progresses statement s ∧ Progresses block s ∧ Progresses expression s ∧
      Progresses logical s ∧ (∀ least, Progresses (fun n => binary n least) s) ∧
      Progresses unary s ∧
      Progresses applied s ∧ Progresses operand s ∧ Progresses property s ∧
      (∀ close item, Progresses (fun n => list n close item) s) ∧
      (∀ start node, GoesOn (fun n => trailers n start node) s ∧
        GoesOn (fun n => logicalRest n start node) s ∧
        ∀ least, GoesOn (fun n => binaryRest n least start node) s) ∧
      Ends program s fun s' => s'.index + 1 = s'.tokens.size) ∧
    ∀ languages source name,
      (∃ e, Parser.ofReading (Reading.ofSource languages source) = .error e ∧
        Program.parse languages source name = .error e) ∨
      (∃ start result s',
        Parser.ofReading (Reading.ofSource languages source) = .ok start ∧ start.Closed ∧
        Comes program start (result, s') ∧
        Program.parse languages source name = result.map (fun body => ⟨name, source, body⟩) ∧
        ∀ body, result = .ok body → s'.index + 1 = s'.tokens.size) := by
  constructor
  · intro s closed
    obtain ⟨t, on⟩ := closed.exists_on
    have descends := Grammar.descends_upTo (t.rest.length + 1)
    have within : t.rest.length < t.rest.length + 1 := Nat.lt_succ_self _
    have short : t.rest.length ≤ t.rest.length + 1 := Nat.le_succ _
    refine ⟨?_, ?_, ?_, ?_, ?_, ?_, ?_, ?_, ?_, ?_, ?_, ?_⟩
    · exact (descends.statement on within).progresses on
    · exact (Grammar.along_block descends on short).progresses on
    · exact (descends.expression on within).progresses on
    · exact (Grammar.along_logical descends on short).progresses on
    · intro least
      have climbed := Grammar.climbed_level descends least on short
      exact (climbed.imp fun _ taken => taken.1).progresses on
    · exact (Grammar.along_factor descends on short).progresses on
    · exact (Grammar.along_applied descends on short).progresses on
    · exact (Grammar.along_operand descends on short).progresses on
    · exact (Grammar.along_property descends on short).progresses on
    · intro close item
      have listed := Grammar.along_items descends on within close
      cases item with
      | expression => exact listed.1.progresses on
      | property => exact listed.2.progresses on
    · intro start node
      refine ⟨?_, ?_, ?_⟩
      · exact (Grammar.tracked_trailers descends start _ on short (Nat.le_refl _) node).goesOn on
      · exact (Grammar.tracked_logicalRest descends start _ on short (Nat.le_refl _) node).goesOn on
      · intro least
        obtain ⟨result, tracked⟩ :=
          Grammar.exists_tracked_binaryRest descends least start on short node
        exact tracked.goesOn on
    · have tracked := Grammar.tracked_programUpTo (fun on' short' => descends.statement on'
        (Nat.lt_succ_of_le short')) _ on (Nat.le_refl _) within
      exact tracked.ends fun s' u on' _ ended => on'.last ended
  · intro languages source name
    cases read : Parser.ofReading (Reading.ofSource languages source) with
    | error e => exact .inl ⟨e, rfl, Program.ofReading_of_error read name source⟩
    | ok start =>
      obtain ⟨closed, result, s', ends, parsed, last⟩ := Program.exists_descent read rfl
        (fun _ found _ member => Reading.kind_ne_eof found member) name source
      exact .inr ⟨start, result, s', rfl, closed, ends, parsed, last⟩

/-- A block that the end of the script leaves open. -/
def openBlock : Parser where
  tokens := #[⟨.symbol .lbrace, "\x7b", default⟩, ⟨.name "x", "x", default⟩, ⟨.eof, "", default⟩]
  dictionary := .english

/-- It is not read forever. -/
theorem every_rule_progresses_openBlock :
    openBlock.Closed ∧ Progresses block openBlock ∧
      Ends program openBlock fun s' => s'.index + 1 = s'.tokens.size := by
  have closed : openBlock.Closed := by
    refine ⟨⟨openBlock.tokens.toList.dropLast, ⟨.eof, "", default⟩, rfl, rfl, ?_⟩, by decide⟩
    simp [openBlock]
  obtain ⟨-, block, -, -, -, -, -, -, -, -, -, program⟩ := every_rule_progresses.1 openBlock closed
  exact ⟨closed, block, program⟩

end Descent

end Polyglot
