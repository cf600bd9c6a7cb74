import Polyglot.Proofs.Parsing.Carrying

/-!
# The rules read on

One lemma for each rule of the grammar: it reads the same where more follows, over grammars of which
the first is carried by the second. Unrolling the rules gives the same for the statements of whole
programs.
-/

namespace Polyglot

open Parsing

variable {α : Type} {t more : Tape}

/-! ## Where no expression begins -/

namespace Parsing

theorem rejects_markBind {f : Cursor → Parsing α} (rest : ∀ start, Rejects t (f start)) :
    Rejects t (mark >>= f) :=
  rest _

theorem rejects_currentBind {f : Token → Parsing α} (rest : Rejects t (f t.current)) :
    Rejects t (current >>= f) :=
  rest

theorem rejects_remainingBind {f : Nat → Parsing α} (rest : ∀ n, Rejects t (f n)) :
    Rejects t (remaining >>= f) :=
  rest _

theorem rejects_atBind {f : Bool → Parsing α} {s : Symbol}
    (other : t.current.kind.isSymbol s = false) (rest : Rejects t (f false)) :
    Rejects t (at? s >>= f) := by
  rw [← other] at rest
  exact rest

/-- Nothing is skipped at the end. -/
theorem rejects_skipBind {f : PUnit → Parsing α} (p : TokenKind → Bool)
    (rest : ∀ u : Tape, u.rest = [] → u.eof = t.eof → Rejects u (f ⟨⟩)) (ended : t.rest = []) :
    Rejects t (modify (Tape.skip p) >>= f) := by
  have none : (t.skip p).rest = [] := by
    simp [Tape.skip, ended]
  exact rest _ none rfl

end Parsing

namespace Grammar

section

variable (g : Grammar) (c : Context) (idle : t.current.kind.StartsNothing)

include idle

theorem rejects_operand : Rejects t (g.operand c) := by
  apply rejects_currentBind
  rcases idle with isEof | isElse
  · rw [isEof]
    exact rejects_unexpected t _ _
  · rw [isElse]
    exact rejects_unexpected t _ _

theorem rejects_applied : Rejects t (g.applied c) := by
  apply rejects_markBind
  intro start
  exact (g.rejects_operand c idle).bind

theorem rejects_signed {operand : Parsing Node} (inner : Rejects t operand) (n : Nat) :
    Rejects t (signed operand n) := by
  cases n with
  | zero => exact inner
  | succ n =>
    apply rejects_currentBind
    rcases idle with isEof | isElse
    · rw [isEof]
      exact inner
    · rw [isElse]
      exact inner

omit idle in
theorem rejects_chain {op? : TokenKind → Option α} {combine : Location → Node → α → Node → Node}
    {operand : Parsing Node} (inner : Rejects t operand) :
    Rejects t (chain op? combine operand) := by
  apply rejects_markBind
  intro start
  exact inner.bind

theorem rejects_assignment : Rejects t (g.assignment c) := by
  have factor : Rejects t (g.factor c) := by
    apply rejects_remainingBind
    intro n
    exact rejects_signed idle (g.rejects_applied c idle) n
  have logical : Rejects t (g.logical c) :=
    rejects_chain (rejects_chain (rejects_chain (rejects_chain factor)))
  apply rejects_markBind
  intro start
  exact logical.bind

end

theorem rejects_expression (n : Nat) (c : Context) (idle : t.current.kind.StartsNothing) :
    Rejects t ((upTo n).expression c) := by
  cases n with
  | zero => exact rejects_unexpected t _ _
  | succ n => exact rejects_assignment _ c idle

theorem rejects_statement (n : Nat) (c : Context) (idle : t.current.kind.StartsNothing) :
    Rejects t ((upTo n).statement c) := by
  cases n with
  | zero => exact rejects_unexpected t _ _
  | succ n =>
    have expression : Rejects t (do
        let start ← mark
        let expr ← (upTo n).expression c
        let loc ← since start
        endStatement c expr
        return Node.statement loc expr) := by
      apply rejects_markBind
      intro start
      exact (rejects_expression n c idle).bind
    apply rejects_currentBind
    rcases idle with isEof | isElse
    · rw [isEof]
      exact expression
    · rw [isElse]
      exact expression

end Grammar

/-! ## Grammars -/

/-- The second tape goes on like the first with more behind it; at the end of the first, the line
end behind it may have been taken. -/
def Tape.LeadsTo (more u v : Tape) : Prop :=
  v = u.append more ∨
    u.rest = [] ∧ more.current.kind = .eol ∧ v.rest = more.rest.tail ∧ v.eof = more.eof

theorem Parsing.Carried.leadsTo {p q : Parsing α} (carried : Carried more t p q) :
    Carries (Tape.LeadsTo more) more t (t.append more) p q := by
  apply Carries.imp carried
  intro u v same
  exact .inl same

/-- What the first grammar reads, the second one reads where more follows. -/
structure Grammar.CarriedBy (more : Tape) (g h : Grammar) : Prop where
  expression : ∀ c t, t.Meets more → Carried more t (g.expression c) (h.expression c)
  statement : ∀ c t, t.Meets more →
    Carries (Tape.LeadsTo more) more t (t.append more) (g.statement c) (h.statement c)
  needs : ∀ c t, t.current.kind = .eof → Rejects t (g.expression c)

namespace Grammar

/-! ## Lists -/

theorem carried_itemsUpTo {item item' : Parsing α}
    (inner : ∀ t, t.Meets more → Carried more t item item')
    (needs : ∀ t, t.current.kind = .eof → Rejects t item) (close : Symbol) {n m : Nat}
    (enough : n ≤ m) (meets : t.Meets more) :
    Carried more t (itemsUpTo close item n) (itemsUpTo close item' m) := by
  induction n generalizing m t with
  | zero => exact (rejects_unexpected t _ _).carries
  | succ n ih =>
    obtain ⟨m, rfl⟩ := Nat.exists_eq_add_of_le' enough
    apply carries_skipBind meets _
    · intro u isEof
      apply rejects_atBind (by rw [isEof]; rfl)
      exact (needs u isEof).bind
    intro u meets
    apply carries_atBind meets close
    intro closes ahead
    split
    · rename_i isThere
      apply carries_advanceBind meets (ahead isThere)
      intro u meets _
      exact carried_pure meets _
    apply (inner u meets).bind
    intro first u meets _
    apply carries_skipBind meets _
    · intro u isEof
      apply rejects_atBind (by rw [isEof]; rfl)
      apply rejects_atBind (by rw [isEof]; rfl)
      exact (rejects_unexpected u _ _).bind
    intro u meets
    have others : ∀ u : Tape, u.Meets more → Carried more u
        (itemsUpTo close item n >>= fun rest => pure (first :: rest))
        (itemsUpTo close item' (m + n) >>= fun rest => pure (first :: rest)) := by
      intro u meets
      apply (ih (by omega) meets).bind
      intro rest u meets _
      exact carried_pure meets _
    apply carries_atBind meets .comma
    intro goesOn ahead
    split
    · rename_i isThere
      apply carries_advanceBind meets (ahead isThere)
      intro u meets _
      exact others u meets
    apply carries_atBind meets close
    intro ends _
    split
    · exact (rejects_unexpected u _ _).bind.carries
    · exact others u meets

theorem carried_items {item item' : Parsing α}
    (inner : ∀ t, t.Meets more → Carried more t item item')
    (needs : ∀ t, t.current.kind = .eof → Rejects t item) (close : Symbol)
    (meets : t.Meets more) : Carried more t (items close item) (items close item') := by
  apply carries_remainingBind
  intro n longer
  exact carried_itemsUpTo inner needs close (by omega) meets

theorem rejects_statementsUpTo (statement : Parsing Node) (n : Nat) (meets : t.Meets more)
    (ended : t.rest = []) : Rejects t (statementsUpTo statement n) := by
  cases n with
  | zero => exact rejects_unexpected t _ _
  | succ n =>
    refine rejects_skipBind _ ?_ ended
    intro u ended' sameEof
    apply rejects_currentBind
    rw [Tape.current_of_nil ended', sameEof, meets.eof]
    exact rejects_unexpected u _ _

theorem carried_statementsUpTo {statement statement' : Parsing Node}
    (inner : ∀ t, t.Meets more →
      Carries (Tape.LeadsTo more) more t (t.append more) statement statement') {n m : Nat}
    (enough : n ≤ m) (meets : t.Meets more) :
    Carried more t (statementsUpTo statement n) (statementsUpTo statement' m) := by
  induction n generalizing m t with
  | zero => exact (rejects_unexpected t _ _).carries
  | succ n ih =>
    obtain ⟨m, rfl⟩ := Nat.exists_eq_add_of_le' enough
    apply carries_skipBind meets _
    · intro u isEof
      apply rejects_currentBind
      rw [isEof]
      exact rejects_unexpected u _ _
    intro u meets
    apply carries_currentBind meets
    · intro ahead
      split
      · apply carries_advanceBind meets ahead
        intro u meets _
        exact carried_pure meets _
      · exact (rejects_unexpected u _ _).carries
      · apply (inner u meets).bind
        intro first u v meets _ leads
        -- A statement that took the line end stood at the end, where no closing brace follows.
        rcases leads with rfl | ⟨ended, -⟩
        · apply (ih (Nat.le_add_left n m) meets).bind
          intro rest u meets _
          exact carried_pure meets _
        · exact (rejects_statementsUpTo statement n meets ended).bind.carries
    · intro _ isEof _
      rw [isEof]
      exact (rejects_unexpected u _ _).carries

variable {g h : Grammar} (carried : g.CarriedBy more h) (c : Context)

include carried

theorem carried_block (meets : t.Meets more) : Carried more t (g.block c) (h.block c) := by
  apply carries_markBind meets
  intro start
  apply (carried_take meets .lbrace).bind
  intro _ u meets _
  apply carries_remainingBind
  intro n longer
  apply (carried_statementsUpTo (carried.statement _) (by omega) meets).bind
  intro body u meets _
  exact carried_made meets start _

/-! ## Conditionals and loops -/

theorem carried_branch (meets : t.Meets more) : Carried more t (g.branch c) (h.branch c) := by
  apply carries_skipBind meets _
  · intro u isEof
    exact rejects_atBind (by rw [isEof]; rfl) (carried.needs c u isEof)
  intro u meets
  apply carries_atBind meets .lbrace
  intro opens _
  split
  · exact carried_block carried c meets
  · exact carried.expression c u meets

theorem carried_loopBody (meets : t.Meets more) : Carried more t (g.loopBody c) (h.loopBody c) :=
  carried_branch carried { c with inLoop := true } meets

theorem carried_parenthesized (meets : t.Meets more) :
    Carried more t (g.parenthesized c) (h.parenthesized c) := by
  apply carries_markBind meets
  intro start
  apply (carried_take meets .lparen).bind
  intro _ u meets _
  apply (carried.expression c u meets).bind
  intro inner u meets _
  apply (carried_take meets .rparen).bind
  intro _ u meets _
  exact carried_made meets start _

theorem carried_condition (meets : t.Meets more) :
    Carried more t (g.condition c) (h.condition c) := by
  apply carries_atBind meets .lparen
  intro opens _
  split
  · exact carried_parenthesized carried c meets
  · exact carried.expression c t meets

theorem carried_conditional (meets : t.Meets more) :
    Carried more t (g.conditional c) (h.conditional c) := by
  apply carries_markBind meets
  intro start
  apply (carried_takeKeyword meets _ _).bind
  intro _ u meets _
  apply (carried_condition carried c meets).bind
  intro test u meets _
  apply (carried_branch carried c meets).bind
  intro yes u meets _
  -- The alternative is looked for past line ends; none begins behind the tape.
  apply carries_getBind
  rw [meets.pastEols]
  split
  · rename_i isElse
    have ahead := meets.rest_skip_of_else isElse
    apply carries_skipAheadBind ahead
    apply carries_advanceBind (meets.skip _) ahead
    intro u meets _
    apply (carried_branch carried c meets).map.bind
    intro no v meets _
    exact carried_made meets start _
  · apply (carried_pure meets _).bind
    intro no v meets _
    exact carried_made meets start _

theorem carried_whileLoop (retain : Bool) (meets : t.Meets more) :
    Carried more t (g.whileLoop c retain) (h.whileLoop c retain) := by
  apply carries_markBind meets
  intro start
  apply (carried_takeKeyword meets _ _).bind
  intro _ u meets _
  apply (carried_condition carried c meets).bind
  intro test u meets _
  apply (carried_loopBody carried c meets).bind
  intro body u meets _
  exact carried_made meets start _

theorem carried_eachLoop (start : Cursor) (target : LoopTarget) (meets : t.Meets more) :
    Carried more t (g.eachLoop c start target) (h.eachLoop c start target) := by
  apply (carried_takeKeyword meets _ _).bind
  intro _ u meets _
  apply (carried.expression c u meets).bind
  intro collection u meets _
  apply (carried_loopBody carried c meets).bind
  intro body u meets _
  exact carried_made meets start _

omit carried in
theorem carried_direction (meets : t.Meets more) : Carried more t direction direction := by
  have turned : ∀ d : Direction, t.rest ≠ [] →
      Carried more t (advance >>= fun _ => pure d) (advance >>= fun _ => pure d) := by
    intro d ahead
    apply carries_advanceBind meets ahead
    intro u meets _
    exact carried_pure meets d
  apply carries_atKeywordBind meets .upKw
  intro up ahead
  split
  · rename_i isThere
    exact turned .up (ahead isThere)
  apply carries_atKeywordBind meets .downKw
  intro down ahead
  split
  · rename_i isThere
    exact turned .down (ahead isThere)
  · exact carried_pure meets _

theorem carried_step (meets : t.Meets more) : Carried more t (g.step c) (h.step c) := by
  apply carries_atKeywordBind meets .withKw
  intro given ahead
  split
  · rename_i isThere
    apply carries_advanceBind meets (ahead isThere)
    intro u meets _
    exact carried.expression c u meets
  · apply carries_markBind meets
    intro start
    exact carried_pure meets _

theorem carried_countLoop (start : Cursor) (counter : Located String) (first : Node)
    (retain : Bool) (meets : t.Meets more) :
    Carried more t (g.countLoop c start counter first retain)
      (h.countLoop c start counter first retain) := by
  apply (carried_takeKeyword meets _ _).bind
  intro _ u meets _
  apply (carried.expression c u meets).bind
  intro bound u meets _
  apply (carried_direction meets).bind
  intro direction u meets _
  apply (carried_step carried c meets).bind
  intro step u meets _
  apply (carried_loopBody carried c meets).bind
  intro body u meets _
  exact carried_made meets start _

theorem carried_forLoop (retain : Bool) (meets : t.Meets more) :
    Carried more t (g.forLoop c retain) (h.forLoop c retain) := by
  apply carries_markBind meets
  intro start
  apply (carried_takeKeyword meets _ _).bind
  intro _ u meets _
  apply carries_atBind meets .lparen
  intro opens ahead
  split
  · rename_i isThere
    apply carries_advanceBind meets (ahead isThere)
    intro u meets _
    apply (carried_takeName meets).bind
    intro first u meets _
    apply (carried_take meets .comma).bind
    intro _ u meets _
    apply (carried_takeName meets).bind
    intro second u meets _
    apply (carried_take meets .rparen).bind
    intro _ u meets _
    exact carried_eachLoop carried c start _ meets
  apply (carried.expression c u meets).bind
  intro header u meets _
  split
  · exact carried_countLoop carried c start _ _ retain meets
  · exact (rejects_reject u _ _).carries
  · apply carries_atKeywordBind meets .inKw
    intro each _
    split
    · exact carried_eachLoop carried c start _ meets
    · exact (rejects_reject u _ _).carries
  · exact (rejects_reject u _ _).carries

/-! ## Operands -/

theorem carried_property (meets : t.Meets more) :
    Carried more t (g.property c) (h.property c) := by
  have value : ∀ (key : Node) (u : Tape), u.Meets more → Carried more u
      (do take .colon; skipEols; return (key, ← g.expression c))
      (do take .colon; skipEols; return (key, ← h.expression c)) := by
    intro key u meets
    apply (carried_take meets .colon).bind
    intro _ u meets _
    apply carries_skipBind meets _
    · intro u isEof
      exact (carried.needs c u isEof).bind
    intro u meets
    apply (carried.expression c u meets).bind
    intro value u meets _
    exact carried_pure meets _
  apply carries_currentBind meets
  · intro ahead
    split
    · apply carries_advanceBind meets ahead
      intro u meets _
      exact value _ u meets
    · apply carries_advanceBind meets ahead
      intro u meets _
      exact value _ u meets
    · apply carries_advanceBind meets ahead
      intro u meets _
      exact value _ u meets
    · apply carries_advanceBind meets ahead
      intro u meets _
      apply (carried.expression c u meets).bind
      intro key u meets _
      apply (carried_take meets .rbracket).bind
      intro _ u meets _
      exact value _ u meets
    · exact (rejects_unexpected t _ _).bind.carries
  · intro _ isEof _
    rw [isEof]
    exact (rejects_unexpected t _ _).bind.carries

omit carried in
theorem carried_single (make : Location → Node) (meets : t.Meets more) (ahead : t.rest ≠ []) :
    Carried more t (single make) (single make) := by
  apply carries_markBind meets
  intro start
  apply carries_advanceBind meets ahead
  intro u meets _
  exact carried_made meets start _

theorem carried_returnValue (meets : t.Meets more) (ahead : t.rest ≠ []) :
    Carried more t (g.returnValue c) (h.returnValue c) := by
  apply carries_markBind meets
  intro start
  apply carries_advanceBind meets ahead
  intro u meets _
  apply carries_currentBind meets
  · intro _
    split
    · apply (carried_pure meets _).bind
      intro value v meets _
      exact carried_made meets start _
    · apply (carried.expression c u meets).map.bind
      intro value v meets _
      exact carried_made meets start _
  · -- Neither the end of the script nor the end of a line gives the `return` a value.
    intro _ isEof ends
    have ends' : endsReturn more.current.kind = true := by
      rcases ends with isEol | isEof' <;> simp [*, endsReturn]
    rw [isEof, ends']
    apply (carried_pure meets _).bind
    intro value v meets _
    exact carried_made meets start _

theorem carried_array (meets : t.Meets more) (ahead : t.rest ≠ []) :
    Carried more t (g.array c) (h.array c) := by
  apply carries_markBind meets
  intro start
  apply carries_advanceBind meets ahead
  intro u meets _
  apply (carried_items (carried.expression c) (carried.needs c) _ meets).bind
  intro elements u meets _
  exact carried_made meets start _

theorem carried_object (meets : t.Meets more) (ahead : t.rest ≠ []) :
    Carried more t (g.object c) (h.object c) := by
  have needs : ∀ u : Tape, u.current.kind = .eof → Rejects u (g.property c) := by
    intro u isEof
    apply rejects_currentBind
    rw [isEof]
    exact (rejects_unexpected u _ _).bind
  apply carries_markBind meets
  intro start
  apply carries_advanceBind meets ahead
  intro u meets _
  apply (carried_items (fun t => carried_property carried c) needs _ meets).bind
  intro properties u meets _
  exact carried_made meets start _

theorem carried_keywordOperand (token : Token) (k : Keyword) (meets : t.Meets more)
    (ahead : t.rest ≠ []) :
    Carried more t (g.keywordOperand c token k) (h.keywordOperand c token k) := by
  have leaving : ∀ make : Location → Node, Carried more t
      (if c.inLoop then single make else reject (.outsideLoop token.text) token.loc)
      (if c.inLoop then single make else reject (.outsideLoop token.text) token.loc) := by
    intro make
    split
    · exact carried_single make meets ahead
    · exact (rejects_reject t _ _).carries
  cases k with
  | trueKw | falseKw | nullKw => exact carried_single _ meets ahead
  | ifKw => exact carried_conditional carried c meets
  | whileKw => exact carried_whileLoop carried c true meets
  | forKw => exact carried_forLoop carried c true meets
  | breakKw | continueKw => exact leaving _
  | returnKw => exact carried_returnValue carried c meets ahead
  | elseKw | withKw | upKw | downKw | tillKw | inKw => exact (rejects_unexpected t _ _).carries

theorem carried_operand (meets : t.Meets more) : Carried more t (g.operand c) (h.operand c) := by
  apply carries_currentBind meets
  · intro ahead
    split
    · exact carried_single _ meets ahead
    · exact carried_single _ meets ahead
    · exact carried_single _ meets ahead
    · exact carried_single _ meets ahead
    · exact carried_parenthesized carried c meets
    · exact carried_array carried c meets ahead
    · exact carried_object carried c meets ahead
    · exact carried_keywordOperand carried c _ _ meets ahead
    · exact (rejects_unexpected t _ _).carries
  · intro _ isEof _
    rw [isEof]
    exact (rejects_unexpected t _ _).carries

/-- The bound on calls and indices is never reached, since there are as many tokens. -/
theorem carried_trailers (start : Cursor) {n m : Nat} (enough : n ≤ m) (node : Node)
    (meets : t.Meets more) (bound : t.rest.length ≤ n) :
    Carried more t (g.trailers c start n node) (h.trailers c start m node) := by
  induction n generalizing m t node with
  | zero =>
    have ended : t.rest = [] := List.length_eq_zero_iff.1 (Nat.le_zero.1 bound)
    cases m with
    | zero => exact carried_pure meets node
    | succ m =>
      apply carries_lineEndBind meets ended
      intro ends
      rcases ends with isEol | isEof
      · rw [isEol]
        exact carried_pure meets node
      · rw [isEof]
        exact carried_pure meets node
  | succ n ih =>
    obtain ⟨m, rfl⟩ := Nat.exists_eq_add_of_le' enough
    apply carries_currentBind meets
    · intro ahead
      split
      · apply carries_advanceBind meets ahead
        intro u meets fewer
        apply (carried.expression c u meets).bind
        intro key v meets shorter
        apply (carried_take meets .rbracket).bind
        intro _ w meets shorter'
        apply carries_sinceBind start
        intro loc
        exact ih (Nat.le_add_left n m) _ meets (by omega)
      · split
        · apply carries_advanceBind meets ahead
          intro u meets fewer
          apply (carried_items (carried.expression c) (carried.needs c) _ meets).bind
          intro args v meets shorter
          apply carries_sinceBind start
          intro loc
          exact ih (Nat.le_add_left n m) _ meets (by omega)
        · exact (rejects_reject t _ _).carries
      · exact carried_pure meets node
    · intro _ isEof ends
      rw [isEof]
      rcases ends with isEol | isEof'
      · rw [isEol]
        exact carried_pure meets node
      · rw [isEof']
        exact carried_pure meets node

theorem carried_applied (meets : t.Meets more) : Carried more t (g.applied c) (h.applied c) := by
  apply carries_markBind meets
  intro start
  apply (carried_operand carried c meets).bind
  intro node u meets _
  apply carries_remainingBind
  intro n longer
  exact carried_trailers carried c start longer node meets (Nat.le_refl _)

/-! ## Operators -/

omit carried

theorem carried_signed {operand operand' : Parsing Node}
    (inner : ∀ t, t.Meets more → Carried more t operand operand') {n m : Nat} (enough : n ≤ m)
    (meets : t.Meets more) (bound : t.rest.length ≤ n) :
    Carried more t (signed operand n) (signed operand' m) := by
  have unsigned : ∀ kind : TokenKind, kind.EndsLine → unaryOp? kind = none := by
    intro kind ends
    rcases ends with rfl | rfl <;> rfl
  induction n generalizing m t with
  | zero =>
    have ended : t.rest = [] := List.length_eq_zero_iff.1 (Nat.le_zero.1 bound)
    cases m with
    | zero => exact inner t meets
    | succ m =>
      -- Where nothing is left, a line ends behind, so there is no operator either.
      apply carries_lineEndBind meets ended
      intro ends
      rw [unsigned _ ends]
      exact inner t meets
  | succ n ih =>
    obtain ⟨m, rfl⟩ := Nat.exists_eq_add_of_le' enough
    apply carries_currentBind meets
    · intro ahead
      split
      · exact inner t meets
      · apply carries_markBind meets
        intro start
        apply carries_advanceBind meets ahead
        intro u meets fewer
        apply (ih (Nat.le_add_left n m) meets (by omega)).bind
        intro node u meets _
        exact carried_made meets start _
    · intro _ isEof ends
      rw [isEof, unsigned _ ends]
      exact inner t meets

theorem carried_chainRest {op? : TokenKind → Option α}
    (plain : ∀ kind, kind.EndsLine → op? kind = none)
    {combine : Location → Node → α → Node → Node} {operand operand' : Parsing Node}
    (inner : ∀ t, t.Meets more → Carried more t operand operand') (start : Cursor) {n m : Nat}
    (enough : n ≤ m) (left : Node) (meets : t.Meets more) (bound : t.rest.length ≤ n) :
    Carried more t (chainRest op? combine operand start n left)
      (chainRest op? combine operand' start m left) := by
  induction n generalizing m t left with
  | zero =>
    have ended : t.rest = [] := List.length_eq_zero_iff.1 (Nat.le_zero.1 bound)
    cases m with
    | zero => exact carried_pure meets left
    | succ m =>
      apply carries_lineEndBind meets ended
      intro ends
      rw [plain _ ends]
      exact carried_pure meets left
  | succ n ih =>
    obtain ⟨m, rfl⟩ := Nat.exists_eq_add_of_le' enough
    apply carries_currentBind meets
    · intro ahead
      split
      · exact carried_pure meets left
      · apply carries_advanceBind meets ahead
        intro u meets fewer
        apply (inner u meets).bind
        intro right v meets shorter
        apply carries_sinceBind start
        intro loc
        exact ih (Nat.le_add_left n m) _ meets (by omega)
    · intro _ isEof ends
      rw [plain _ (.inr isEof), plain _ ends]
      exact carried_pure meets left

theorem carried_chain {op? : TokenKind → Option α}
    (plain : ∀ kind, kind.EndsLine → op? kind = none)
    {combine : Location → Node → α → Node → Node} {operand operand' : Parsing Node}
    (inner : ∀ t, t.Meets more → Carried more t operand operand') (meets : t.Meets more) :
    Carried more t (chain op? combine operand) (chain op? combine operand') := by
  apply carries_markBind meets
  intro start
  apply (inner t meets).bind
  intro left u meets _
  apply carries_remainingBind
  intro n longer
  exact carried_chainRest plain inner start longer left meets (Nat.le_refl _)

include carried

theorem carried_logical (meets : t.Meets more) : Carried more t (g.logical c) (h.logical c) := by
  have factor : ∀ t : Tape, t.Meets more → Carried more t (g.factor c) (h.factor c) := by
    intro t meets
    apply carries_remainingBind
    intro n longer
    exact carried_signed (fun _ => carried_applied carried c) longer meets (Nat.le_refl _)
  have product : ∀ t : Tape, t.Meets more → Carried more t (g.product c) (h.product c) := by
    intro t meets
    exact carried_chain (by rintro _ (rfl | rfl) <;> rfl) factor meets
  have sum : ∀ t : Tape, t.Meets more → Carried more t (g.sum c) (h.sum c) := by
    intro t meets
    exact carried_chain (by rintro _ (rfl | rfl) <;> rfl) product meets
  have comparison : ∀ t : Tape, t.Meets more →
      Carried more t (g.comparison c) (h.comparison c) := by
    intro t meets
    exact carried_chain (by rintro _ (rfl | rfl) <;> rfl) sum meets
  exact carried_chain (by rintro _ (rfl | rfl) <;> rfl) comparison meets

/-! ## Expressions and statements -/

theorem carried_assignment (meets : t.Meets more) :
    Carried more t (g.assignment c) (h.assignment c) := by
  apply carries_markBind meets
  intro start
  apply (carried_logical carried c meets).bind
  intro left u meets _
  apply carries_atBind meets .assign
  intro assigns ahead
  split
  · exact carried_pure meets left
  · rename_i isThere
    dsimp only
    split
    · exact (rejects_reject u _ _).bind.carries
    · apply carries_advanceBind meets (ahead (by simpa using isThere))
      intro u meets _
      apply (carried.expression c u meets).bind
      intro value u meets _
      exact carried_made meets start _

omit carried in
/-- A statement at the end of the script takes the line end that follows. -/
theorem carries_endStatement (expr : Node) (meets : t.Meets more) :
    Carries (Tape.LeadsTo more) more t (t.append more) (endStatement c expr)
      (endStatement c expr) := by
  apply carries_currentBind meets
  · intro ahead
    split
    · exact (carried_advance meets ahead).leadsTo
    · exact (carried_advance meets ahead).leadsTo
    · exact (carried_pure meets _).leadsTo
    · split
      · exact (carried_pure meets _).leadsTo
      · exact (rejects_unexpected t _ _).carries
  · intro ended isEof ends
    rw [isEof]
    rcases ends with isEol | isEof'
    · rw [isEol]
      intro a u accepted
      cases accepted
      refine ⟨meets, Nat.le_refl _, (t.append more).advance, rfl, .inr ⟨ended, isEol, ?_, ?_⟩⟩
      · simp [Tape.rest_advance, Tape.append, ended]
      · exact Tape.eof_advance _
    · rw [isEof']
      exact (carried_pure meets _).leadsTo

theorem carries_instruction (meets : t.Meets more) :
    Carries (Tape.LeadsTo more) more t (t.append more) (g.instruction c) (h.instruction c) := by
  have plain : Carries (Tape.LeadsTo more) more t (t.append more)
      (do
        let start ← mark
        let expr ← g.expression c
        let loc ← since start
        endStatement c expr
        return Node.statement loc expr)
      (do
        let start ← mark
        let expr ← h.expression c
        let loc ← since start
        endStatement c expr
        return Node.statement loc expr) := by
    apply carries_markBind meets
    intro start
    apply (carried.expression c t meets).bind
    intro expr u meets _
    apply carries_sinceBind start
    intro loc
    apply (carries_endStatement c expr meets).bind
    intro _ v w meets _ leads a x accepted
    cases accepted
    exact ⟨meets, Nat.le_refl _, w, rfl, leads⟩
  apply carries_currentBind meets
  · intro _
    split
    · exact (carried_block carried c meets).leadsTo
    · exact (carried_conditional carried c meets).leadsTo
    · exact (carried_whileLoop carried c false meets).leadsTo
    · exact (carried_forLoop carried c false meets).leadsTo
    · exact plain
  · intro _ isEof ends
    rw [isEof]
    rcases ends with isEol | isEof'
    · rw [isEol]
      exact plain
    · rw [isEof']
      exact plain

omit carried

theorem carriedBy_upTo {n m : Nat} (enough : n ≤ m) : (upTo n).CarriedBy more (upTo m) := by
  induction n generalizing m with
  | zero =>
    refine ⟨?_, ?_, ?_⟩
    · intro c t _
      exact (rejects_unexpected t _ _).carries
    · intro c t _
      exact (rejects_unexpected t _ _).carries
    · intro c t _
      exact rejects_unexpected t _ _
  | succ n ih =>
    obtain ⟨m, rfl⟩ := Nat.exists_eq_add_of_le' enough
    have inner := ih (Nat.le_add_left n m)
    refine ⟨?_, ?_, ?_⟩
    · intro c t meets
      exact carried_assignment inner c meets
    · intro c t meets
      exact carries_instruction inner c meets
    · intro c t isEof
      exact rejects_expression (n + 1) c (.inl isEof)

end Grammar

end Polyglot
