import Polyglot.Proofs.Parsing.Descending

/-!
# The rules of the descent

One lemma for each rule: the descent goes along with the rule of the grammar and takes a token. A
rule that takes a token before it comes back to expressions or statements may stand as far from the
end as these are known to be descended along, and any other rule a token closer. Enough is any bound
on repetitions that the tokens ahead do not exceed.
-/

namespace Polyglot

variable {α β : Type}

namespace Descent

/-! ## Lists and blocks -/

/-- What is rejected is not gone on with. -/
theorem unexpected_bind (expected : Expected) (suggestion : Option String) (f : α → Descent β) :
    (unexpected expected suggestion >>= f) = unexpected expected suggestion := by
  unfold unexpected
  rw [bind_assoc]
  congr 1
  funext token
  split <;> rfl

theorem if_bind (b : Bool) (p p' : Descent α) (f : α → Descent β) :
    ((if b = true then p else p') >>= f) = if b = true then p >>= f else p' >>= f := by
  cases b <;> rfl

/-- A list and the symbol that closes it, item by item. -/
theorem list_eq (n : Nat) (close : Symbol) (item : Item) :
    list (n + 2) close item = (do
      skipEols n
      if ← at? close then
        take close
        return []
      else
        let first ← oneItem n item
        skipEols n
        if ← at? .comma then
          advance
          return first :: (← list (n + 1) close item)
        else if ← at? close then return first :: (← list (n + 1) close item)
        else unexpected (.separator close)) := by
  have more (first : item.Reading) :
      (do return first :: (← list (n + 1) close item)) = (do
        let others ← items n close item
        take close
        return first :: others) := by
    simp only [list, bind_assoc, pure_bind]
  conv_lhs => rw [list, items]
  simp only [more, bind_assoc, pure_bind, if_bind, unexpected_bind]

/-- Statements and the brace that closes the block around them. -/
def closedStatements (n : Nat) : Descent (List Node) := do
  let body ← statements n
  take .rbrace
  return body

theorem closedStatements_eq (n : Nat) :
    closedStatements (n + 1) = (do
      skipSeparators n
      let token ← current
      match token.kind with
      | .symbol .rbrace => do
        take .rbrace
        return []
      | .eof => unexpected (.symbol .rbrace)
      | _ => do
        let first ← statement n
        return first :: (← closedStatements n)) := by
  have more (first : Node) :
      (do return first :: (← closedStatements n)) = (do
        let others ← statements n
        take .rbrace
        return first :: others) := by
    simp only [closedStatements, bind_assoc, pure_bind]
  conv_lhs => rw [closedStatements, statements]
  simp only [more, bind_assoc]
  congr 1
  funext _
  congr 1
  funext token
  split
  · simp only [*, pure_bind]
  · simp only [*, unexpected_bind]
  · simp only [bind_assoc, pure_bind]

theorem block_eq (n : Nat) :
    block (n + 1) = (do
      let start ← mark
      take .lbrace
      enterBlock
      let body ← closedStatements n
      leaveBlock
      return .block (← since start) body) := by
  rw [block]
  simp only [closedStatements, bind_assoc, pure_bind]

end Descent

open Parsing (take skipEols)

/-- The descent goes along with the rule and takes a token. -/
abbrev Along (p : Nat → Descent α) (q : Parsing α) (s : Parser) (c : Context) (t : Tape) : Prop :=
  Tracked s c (Tape.Under t.rest.length) p (q.run t)

/-- Expressions and statements are descended along where fewer than `n` tokens are ahead. -/
structure Grammar.Descends (g : Grammar) (n : Nat) : Prop where
  expression : ∀ {s c t}, s.On c t → t.rest.length < n →
    Along Descent.expression (g.expression c) s c t
  statement : ∀ {s c t}, s.On c t → t.rest.length < n →
    Along Descent.statement (g.statement c) s c t

namespace Grammar

variable {g : Grammar} {n : Nat} {s : Parser} {c : Context} {t : Tape}

theorem Descends.mono {m : Nat} (descends : g.Descends n) (fewer : m ≤ n) : g.Descends m :=
  ⟨fun on short => descends.expression on (Nat.lt_of_lt_of_le short fewer),
    fun on short => descends.statement on (Nat.lt_of_lt_of_le short fewer)⟩

theorem along_itemsUpTo {item : Descent.Item} {q : Parsing item.Reading} {m : Nat}
    (inner : ∀ {s t}, s.On c t → t.rest.length ≤ m →
      Along (fun n => Descent.oneItem n item) q s c t)
    (close : Symbol) (k : Nat) (on : s.On c t) (short : t.rest.length ≤ m)
    (enough : t.rest.length < k) :
    Along (fun n => Descent.list n close item) (itemsUpTo close q k) s c t := by
  induction k generalizing s t with
  | zero => omega
  | succ k ih =>
    refine .deeper rfl (.deeper rfl ?_)
    simp only [Descent.list_eq]
    refine (Descent.tracked_skipEols on).bind ?_
    intro _ s₁ u₁ on₁ left₁
    refine .ifAt on₁ ?_ ?_
    · intro closes
      refine (Tracked.takeThere on₁ closes).bind ?_
      intro _ s₂ u₂ on₂ left₂
      exact .pure on₂ (by omega) _
    · intro _
      refine (inner on₁ (by omega)).bind ?_
      intro first s₂ u₂ on₂ left₂
      refine (Descent.tracked_skipEols on₂).bind ?_
      intro _ s₃ u₃ on₃ left₃
      -- The other items follow whether there is a comma or the closing symbol.
      have others : ∀ {s₄ u₄}, s₄.On c u₄ → u₄.rest.length ≤ u₃.rest.length →
          Tracked s₄ c (Tape.Under t.rest.length)
            (fun n => do return first :: (← Descent.list (n + 1) close item))
            ((do return first :: (← itemsUpTo close q k) : Parsing _).run u₄) := by
        intro s₄ u₄ on₄ left₄
        refine (ih on₄ (by omega) (by omega)).shallower.bind ?_
        intro rest s₅ u₅ on₅ left₅
        exact .pure on₅ (by omega) _
      refine .ifAt on₃ ?_ ?_
      · intro isComma
        refine (Tracked.advanceOver on₃ isComma).bind ?_
        intro _ s₄ u₄ on₄ left₄
        exact others on₄ (by omega)
      · intro _
        refine .atBind on₃ ?_
        intro ends isThere
        cases ends with
        | true => exact others on₃ (Nat.le_refl _)
        | false => exact .unexpectedBind on₃ _ _ _

theorem along_statementsUpTo {q : Parsing Node} {m : Nat}
    (inner : ∀ {s t}, s.On c t → t.rest.length ≤ m → Along Descent.statement q s c t)
    (k : Nat) (on : s.On c t) (short : t.rest.length ≤ m) (enough : t.rest.length < k) :
    Along Descent.closedStatements (statementsUpTo q k) s c t := by
  induction k generalizing s t with
  | zero => omega
  | succ k ih =>
    refine .deeper rfl ?_
    simp only [Descent.closedStatements_eq]
    refine (Descent.tracked_skipSeparators on).bind ?_
    intro _ s₁ u₁ on₁ left₁
    have others : Tracked s₁ c (Tape.Under t.rest.length)
        (fun n => do
          let first ← Descent.statement n
          return first :: (← Descent.closedStatements n))
        ((do
          let first ← q
          return first :: (← statementsUpTo q k) : Parsing _).run u₁) := by
      refine (inner on₁ (by omega)).bind ?_
      intro first s₂ u₂ on₂ left₂
      refine (ih on₂ (by omega) (by omega)).bind ?_
      intro rest s₃ u₃ on₃ left₃
      exact .pure on₃ (by omega) _
    refine .currentBind on₁ ?_
    cases kind : u₁.current.kind with
    | symbol symbol =>
      cases symbol with
      | rbrace =>
        have isThere : u₁.current.kind.isSymbol .rbrace = true := by
          rw [kind]
          rfl
        refine (Tracked.takeThere on₁ isThere).bind ?_
        intro _ s₂ u₂ on₂ left₂
        exact .pure on₂ (by omega) _
      | _ => exact others
    | eof => exact .unexpected on₁ _ _
    | _ => exact others

section

variable (descends : g.Descends n)

include descends

theorem along_block (on : s.On c t) (short : t.rest.length ≤ n) :
    Along Descent.block (g.block c) s c t := by
  refine .deeper rfl ?_
  simp only [Descent.block_eq]
  refine .markBind on ?_
  refine (Tracked.take on .lbrace).bind ?_
  intro _ s₁ u₁ on₁ left₁
  have inner : ∀ {s' t'}, s'.On { c with inBlock := true } t' →
      t'.rest.length ≤ u₁.rest.length → Along Descent.statement
        (g.statement { c with inBlock := true }) s' { c with inBlock := true } t' :=
    fun on' short' => descends.statement on' (by omega)
  refine .remainingBind (.insideBlock on₁ (fun _ on' =>
    along_statementsUpTo inner _ on' (Nat.le_refl _) (Nat.lt_succ_self _)) ?_)
  intro body s₂ u₂ on₂ left₂
  exact .made on₂ (by omega)

/-! ## Conditionals and loops -/

theorem along_branch (on : s.On c t) (short : t.rest.length < n) :
    Along Descent.branch (g.branch c) s c t := by
  refine .deeper rfl ?_
  simp only [Descent.branch]
  refine (Descent.tracked_skipEols on).bind ?_
  intro _ s₁ u₁ on₁ left₁
  refine .ifAt on₁ ?_ ?_
  · intro _
    exact (along_block descends on₁ (by omega)).imp fun u left => by omega
  · intro _
    exact (descends.expression on₁ (by omega)).imp fun u left => by omega

theorem along_loopBody (on : s.On c t) (short : t.rest.length < n) :
    Along Descent.loopBody (g.loopBody c) s c t :=
  .insideLoop on fun _ on' => along_branch descends on' short

theorem along_parenthesized (on : s.On c t) (short : t.rest.length ≤ n) :
    Along Descent.parenthesized (g.parenthesized c) s c t := by
  refine .deeper rfl ?_
  simp only [Descent.parenthesized]
  refine .markBind on ?_
  refine (Tracked.take on .lparen).bind ?_
  intro _ s₁ u₁ on₁ left₁
  refine (descends.expression on₁ (by omega)).bind ?_
  intro inner s₂ u₂ on₂ left₂
  refine (Tracked.take on₂ .rparen).bind ?_
  intro _ s₃ u₃ on₃ left₃
  exact .made on₃ (by omega)

theorem along_condition (on : s.On c t) (short : t.rest.length < n) :
    Along Descent.condition (g.condition c) s c t := by
  refine .deeper rfl ?_
  simp only [Descent.condition]
  refine .ifAt on ?_ ?_
  · intro _
    exact along_parenthesized descends on (by omega)
  · intro _
    exact descends.expression on short

theorem along_conditional (on : s.On c t) (short : t.rest.length ≤ n) :
    Along Descent.conditional (g.conditional c) s c t := by
  refine .deeper rfl ?_
  simp only [Descent.conditional]
  refine .markBind on ?_
  refine (Tracked.takeKeyword on .ifKw).bind ?_
  intro _ s₁ u₁ on₁ left₁
  refine (along_condition descends on₁ (by omega)).bind ?_
  intro test s₂ u₂ on₂ left₂
  refine (along_branch descends on₂ (by omega)).bind ?_
  intro thenBranch s₃ u₃ on₃ left₃
  refine .pastEolsBind on₃ ?_
  cases u₃.pastEols.kind.isKeyword .elseKw with
  | true =>
    simp only [if_true, map_eq_pure_bind, bind_assoc, pure_bind]
    refine (Descent.tracked_skipEols on₃).bind ?_
    intro _ s₄ u₄ on₄ left₄
    refine (Descent.tracked_advanceAnyway on₄).bind ?_
    intro _ s₅ u₅ on₅ left₅
    refine (along_branch descends on₅ (by omega)).bind ?_
    intro elseBranch s₆ u₆ on₆ left₆
    exact .made on₆ (by omega)
  | false => exact .made on₃ (by omega)

theorem along_whileLoop (on : s.On c t) (short : t.rest.length ≤ n) (retain : Bool) :
    Along (fun n => Descent.whileLoop n retain) (g.whileLoop c retain) s c t := by
  refine .deeper rfl ?_
  simp only [Descent.whileLoop]
  refine .markBind on ?_
  refine (Tracked.takeKeyword on .whileKw).bind ?_
  intro _ s₁ u₁ on₁ left₁
  refine (along_condition descends on₁ (by omega)).bind ?_
  intro test s₂ u₂ on₂ left₂
  refine (along_loopBody descends on₂ (by omega)).bind ?_
  intro body s₃ u₃ on₃ left₃
  exact .made on₃ (by omega)

theorem along_eachLoop (on : s.On c t) (short : t.rest.length ≤ n) (start : Cursor)
    (target : LoopTarget) :
    Along (fun n => Descent.eachLoop n start target) (g.eachLoop c start target) s c t := by
  refine .deeper rfl ?_
  simp only [Descent.eachLoop]
  refine (Tracked.takeKeyword on .inKw).bind ?_
  intro _ s₁ u₁ on₁ left₁
  refine (descends.expression on₁ (by omega)).bind ?_
  intro collection s₂ u₂ on₂ left₂
  refine (along_loopBody descends on₂ (by omega)).bind ?_
  intro body s₃ u₃ on₃ left₃
  exact .made on₃ (by omega)

omit descends in
theorem tracked_direction (on : s.On c t) :
    Tracked s c (Tape.Under (t.rest.length + 1)) (fun _ => Descent.direction)
      (direction.run t) := by
  refine .ifAtKeyword on ?_ fun _ => .ifAtKeyword on ?_ fun _ => .pure on (by omega) _
  all_goals
    intro isThere
    refine (Tracked.advanceOverKeyword on isThere).bind ?_
    intro _ s₁ u₁ on₁ left₁
    exact .pure on₁ (by omega) _

theorem tracked_step (on : s.On c t) (short : t.rest.length < n) :
    Tracked s c (Tape.Under (t.rest.length + 1)) Descent.step
      ((g.step c).run t) := by
  refine .deeper rfl ?_
  simp only [Descent.step]
  refine .ifAtKeyword on ?_ ?_
  · intro isThere
    refine (Tracked.advanceOverKeyword on isThere).bind ?_
    intro _ s₁ u₁ on₁ left₁
    exact (descends.expression on₁ (by omega)).imp fun u left => by omega
  · intro _
    exact .markBind on (.pure on (by omega) _)

theorem along_countLoop (on : s.On c t) (short : t.rest.length ≤ n) (start : Cursor)
    (counter : Located String) (first : Node) (retain : Bool) :
    Along (fun n => Descent.countLoop n start counter first retain)
      (g.countLoop c start counter first retain) s c t := by
  refine .deeper rfl ?_
  simp only [Descent.countLoop]
  refine (Tracked.takeKeyword on .tillKw).bind ?_
  intro _ s₁ u₁ on₁ left₁
  refine (descends.expression on₁ (by omega)).bind ?_
  intro bound s₂ u₂ on₂ left₂
  refine (tracked_direction on₂).bind ?_
  intro direction s₃ u₃ on₃ left₃
  refine (tracked_step descends on₃ (by omega)).bind ?_
  intro step s₄ u₄ on₄ left₄
  refine (along_loopBody descends on₄ (by omega)).bind ?_
  intro body s₅ u₅ on₅ left₅
  exact .made on₅ (by omega)

theorem along_forLoop (on : s.On c t) (short : t.rest.length ≤ n) (retain : Bool) :
    Along (fun n => Descent.forLoop n retain) (g.forLoop c retain) s c t := by
  refine .deeper rfl ?_
  simp only [Descent.forLoop]
  refine .markBind on ?_
  refine (Tracked.takeKeyword on .forKw).bind ?_
  intro _ s₁ u₁ on₁ left₁
  refine .ifAt on₁ ?_ ?_
  · intro isOpen
    refine (Tracked.advanceOver on₁ isOpen).bind ?_
    intro _ s₂ u₂ on₂ left₂
    refine (Tracked.takeName on₂).bind ?_
    intro first s₃ u₃ on₃ left₃
    refine (Tracked.take on₃ .comma).bind ?_
    intro _ s₄ u₄ on₄ left₄
    refine (Tracked.takeName on₄).bind ?_
    intro second s₅ u₅ on₅ left₅
    refine (Tracked.take on₅ .rparen).bind ?_
    intro _ s₆ u₆ on₆ left₆
    exact (along_eachLoop descends on₆ (by omega) _ _).imp fun u left => by omega
  · intro _
    refine (descends.expression on₁ (by omega)).bind ?_
    intro header s₂ u₂ on₂ left₂
    cases header with
    | assign _ target value =>
      cases target with
      | name loc name =>
        exact (along_countLoop descends on₂ (by omega) _ _ _ _).imp fun u left => by omega
      | _ => exact .reject _ _
    | name loc name =>
      refine .ifAtKeyword on₂ ?_ ?_
      · intro _
        exact (along_eachLoop descends on₂ (by omega) _ _).imp fun u left => by omega
      · intro _
        exact .reject _ _
    | _ => exact .reject _ _

/-! ## Operands -/

theorem along_propertyValue (on : s.On c t) (short : t.rest.length ≤ n) (key : Node) :
    Along (fun n => Descent.propertyValue n key) (do
      take .colon
      skipEols
      return (key, ← g.expression c)) s c t := by
  refine .deeper rfl ?_
  simp only [Descent.propertyValue]
  refine (Tracked.take on .colon).bind ?_
  intro _ s₁ u₁ on₁ left₁
  refine (Descent.tracked_skipEols on₁).bind ?_
  intro _ s₂ u₂ on₂ left₂
  refine (descends.expression on₂ (by omega)).bind ?_
  intro value s₃ u₃ on₃ left₃
  exact .pure on₃ (by omega) _

theorem along_property (on : s.On c t) (short : t.rest.length ≤ n) :
    Along Descent.property (g.property c) s c t := by
  refine .deeper rfl ?_
  simp only [Descent.property]
  refine .currentBind on ?_
  simp only [pure_bind]
  by_cases ended : t.current.kind = .eof
  · rw [ended]
    exact .unexpectedBind on _ _ _
  -- After the key, whatever it is, a value follows.
  have keyed (key : Node) : Along
      (fun n => do Descent.advance; Descent.propertyValue n key)
      (do
        Parsing.advance
        take .colon
        skipEols
        return (key, ← g.expression c)) s c t := by
    refine (Descent.tracked_advance on ended).bind ?_
    intro _ s₁ u₁ on₁ left₁
    exact (along_propertyValue descends on₁ (by omega) key).imp fun u left => by omega
  cases t.current.kind with
  | text _ => exact keyed _
  | name _ => exact keyed _
  | keyword _ => exact keyed _
  | symbol symbol =>
    cases symbol with
    | lbracket =>
      refine (Descent.tracked_advance on ended).bind ?_
      intro _ s₁ u₁ on₁ left₁
      refine (descends.expression on₁ (by omega)).bind ?_
      intro key s₂ u₂ on₂ left₂
      refine (Tracked.take on₂ .rbracket).bind ?_
      intro _ s₃ u₃ on₃ left₃
      exact (along_propertyValue descends on₃ (by omega) key).imp fun u left => by omega
    | _ => exact .unexpectedBind on _ _ _
  | _ => exact .unexpectedBind on _ _ _

omit descends in
theorem along_single (on : s.On c t) (ahead : t.current.kind ≠ .eof) (make : Location → Node) :
    Along (fun _ => Descent.single make) (single make) s c t := by
  refine .markBind on ?_
  refine (Descent.tracked_advance on ahead).bind ?_
  intro _ s₁ u₁ on₁ left₁
  exact .made on₁ left₁

theorem along_returnValue (on : s.On c t) (short : t.rest.length ≤ n)
    (ahead : t.current.kind ≠ .eof) :
    Along Descent.returnValue (g.returnValue c) s c t := by
  refine .deeper rfl ?_
  simp only [Descent.returnValue]
  refine .markBind on ?_
  refine (Descent.tracked_advance on ahead).bind ?_
  intro _ s₁ u₁ on₁ left₁
  refine .currentBind on₁ ?_
  cases endsReturn u₁.current.kind with
  | true => exact .made on₁ left₁
  | false =>
    simp only [Bool.false_eq_true, if_false, map_eq_pure_bind, bind_assoc, pure_bind]
    refine (descends.expression on₁ (by omega)).bind ?_
    intro value s₂ u₂ on₂ left₂
    exact .made on₂ (by omega)

theorem along_oneItem (on : s.On c t) (short : t.rest.length < n) :
    Along (fun n => Descent.oneItem n .expression) (g.expression c) s c t ∧
      Along (fun n => Descent.oneItem n .property) (g.property c) s c t := by
  constructor
  · refine .deeper rfl ?_
    simp only [Descent.oneItem]
    exact descends.expression on short
  · refine .deeper rfl ?_
    simp only [Descent.oneItem]
    exact along_property descends on (by omega)

theorem along_items (on : s.On c t) (short : t.rest.length < n) (close : Symbol) :
    Along (fun n => Descent.list n close .expression) (items close (g.expression c)) s c t ∧
      Along (fun n => Descent.list n close .property) (items close (g.property c)) s c t := by
  constructor
  · refine .remainingBind (along_itemsUpTo ?_ close _ on (Nat.le_refl _) (Nat.lt_succ_self _))
    intro s' t' on' short'
    exact (along_oneItem descends on' (by omega)).1
  · refine .remainingBind (along_itemsUpTo ?_ close _ on (Nat.le_refl _) (Nat.lt_succ_self _))
    intro s' t' on' short'
    exact (along_oneItem descends on' (by omega)).2

theorem along_keywordOperand (on : s.On c t) (short : t.rest.length ≤ n) {k : Keyword}
    (kind : t.current.kind = .keyword k) (token : Token) :
    Along (fun n => Descent.keywordOperand n token k) (g.keywordOperand c token k) s c t := by
  have ahead : t.current.kind ≠ .eof := by
    rw [kind]
    exact TokenKind.noConfusion
  have leaves (make : Location → Node) : Along
      (fun _ => do
        if 0 < (← get).loopDepth then Descent.single make
        else Descent.reject (.outsideLoop token.text) token.loc)
      (if c.inLoop then single make
        else Parsing.reject (.outsideLoop token.text) token.loc) s c t := by
    refine .congr (fun _ => Descent.outcome_get_bind _ s) ?_
    rw [on.inLoop]
    by_cases inside : 0 < s.loopDepth
    · simp only [inside, decide_true, if_true]
      exact along_single on ahead make
    · simp only [inside, decide_false, if_false]
      exact .reject _ _
  refine .deeper rfl ?_
  simp only [Descent.keywordOperand]
  cases k with
  | trueKw => exact along_single on ahead _
  | falseKw => exact along_single on ahead _
  | nullKw => exact along_single on ahead _
  | ifKw => exact along_conditional descends on short
  | whileKw => exact along_whileLoop descends on short true
  | forKw => exact along_forLoop descends on short true
  | breakKw => exact leaves _
  | continueKw => exact leaves _
  | returnKw => exact along_returnValue descends on short ahead
  | _ => exact .unexpected on _ _

theorem along_operand (on : s.On c t) (short : t.rest.length ≤ n) :
    Along Descent.operand (g.operand c) s c t := by
  refine .deeper rfl ?_
  simp only [Descent.operand]
  refine .currentBind on ?_
  by_cases ended : t.current.kind = .eof
  · rw [ended]
    exact .unexpected on _ _
  cases kind : t.current.kind with
  | int n => exact along_single on ended _
  | float x => exact along_single on ended _
  | text s => exact along_single on ended _
  | name s => exact along_single on ended _
  | keyword k => exact along_keywordOperand descends on short kind _
  | symbol symbol =>
    cases symbol with
    | lparen => exact along_parenthesized descends on short
    | lbracket =>
      refine .markBind on ?_
      refine (Descent.tracked_advance on ended).bind ?_
      intro _ s₁ u₁ on₁ left₁
      refine (along_items descends on₁ (by omega) .rbracket).1.bind ?_
      intro elements s₂ u₂ on₂ left₂
      exact .made on₂ (by omega)
    | lbrace =>
      refine .markBind on ?_
      refine (Descent.tracked_advance on ended).bind ?_
      intro _ s₁ u₁ on₁ left₁
      refine (along_items descends on₁ (by omega) .rbrace).2.bind ?_
      intro properties s₂ u₂ on₂ left₂
      exact .made on₂ (by omega)
    | _ => exact .unexpected on _ _
  | _ => exact .unexpected on _ _

theorem tracked_trailers (start : Cursor) (k : Nat) (on : s.On c t) (short : t.rest.length ≤ n)
    (enough : t.rest.length ≤ k) (node : Node) :
    Tracked s c (Tape.Under (t.rest.length + 1)) (fun n => Descent.trailers n start node)
      ((g.trailers c start k node).run t) := by
  induction k generalizing s t node with
  | zero =>
    have ended := on.kind_of_nil (List.length_eq_zero_iff.1 (Nat.le_zero.1 enough))
    refine .deeper rfl ?_
    simp only [Descent.trailers]
    refine .lookAhead on ?_
    rw [ended]
    exact .pure on (by omega) node
  | succ k ih =>
    refine .deeper rfl ?_
    simp only [Descent.trailers]
    refine .currentBind on ?_
    cases kind : t.current.kind with
    | symbol symbol =>
      have isThere : t.current.kind.isSymbol symbol = true := by
        rw [kind]
        exact beq_self_eq_true symbol
      cases symbol with
      | lbracket =>
        refine (Tracked.advanceOver on isThere).bind ?_
        intro _ s₁ u₁ on₁ left₁
        refine (descends.expression on₁ (by omega)).bind ?_
        intro key s₂ u₂ on₂ left₂
        refine (Tracked.take on₂ .rbracket).bind ?_
        intro _ s₃ u₃ on₃ left₃
        refine .sinceBind on₃ fun loc => ?_
        exact (ih on₃ (by omega) (by omega) _).imp fun u left => by omega
      | lparen =>
        cases node with
        | name loc name =>
          refine (Tracked.advanceOver on isThere).bind ?_
          intro _ s₁ u₁ on₁ left₁
          refine (along_items descends on₁ (by omega) .rparen).1.bind ?_
          intro args s₂ u₂ on₂ left₂
          refine .sinceBind on₂ fun loc => ?_
          exact (ih on₂ (by omega) (by omega) _).imp fun u left => by omega
        | _ => exact .reject _ _
      | _ => exact .pure on (by omega) node
    | _ => exact .pure on (by omega) node

theorem along_applied (on : s.On c t) (short : t.rest.length ≤ n) :
    Along Descent.applied (g.applied c) s c t := by
  refine .deeper rfl ?_
  simp only [Descent.applied]
  refine .markBind on ?_
  refine (along_operand descends on short).bind ?_
  intro node s₁ u₁ on₁ left₁
  refine .remainingBind ?_
  exact (tracked_trailers descends t.cursor _ on₁ (by omega) (Nat.le_refl _) node).imp
    fun u left => by omega

/-- The signs before an operand are read one by one. -/
theorem along_signed (k : Nat) (on : s.On c t) (short : t.rest.length ≤ n)
    (enough : t.rest.length ≤ k) :
    Along Descent.unary (signed (g.applied c) k) s c t := by
  induction k generalizing s t with
  | zero =>
    have ended := on.kind_of_nil (List.length_eq_zero_iff.1 (Nat.le_zero.1 enough))
    refine .deeper rfl ?_
    simp only [Descent.unary]
    refine .lookAhead on ?_
    rw [ended]
    exact along_applied descends on short
  | succ k ih =>
    refine .deeper rfl ?_
    simp only [Descent.unary]
    refine .currentBind on ?_
    cases sign : unaryOp? t.current.kind with
    | none => exact along_applied descends on short
    | some op =>
      have ahead : t.current.kind ≠ .eof := by
        intro ended
        rw [ended] at sign
        cases sign
      refine .markBind on ?_
      refine (Descent.tracked_advance on ahead).bind ?_
      intro _ s₁ u₁ on₁ left₁
      refine (ih on₁ (by omega) (by omega)).bind ?_
      intro inner s₂ u₂ on₂ left₂
      exact .made on₂ (by omega)

theorem along_factor (on : s.On c t) (short : t.rest.length ≤ n) :
    Along Descent.unary (g.factor c) s c t :=
  .remainingBind (along_signed descends _ on short (Nat.le_refl _))

end

end Grammar

end Polyglot
