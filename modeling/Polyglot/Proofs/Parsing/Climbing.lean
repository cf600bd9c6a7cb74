import Polyglot.Proofs.Parsing.DescentRules

/-!
# Climbing operators

The grammar reads operators level by level, each level as operands of the next tighter one with its
own operators between them. A descent has one rule for all of them, which reads on as long as an
operator binds tightly enough. It goes along with the levels because it can stop on its way: first
it reads what binds more tightly than the operators of a level, and from there it goes on with them.
Its operands take tokens, so that the descent through the tighter operators is known to have an end.
-/

namespace Polyglot

open Descent (binaryOp?)

/-- No operator comes next that binds at least as tightly as `least`. -/
def Tape.Stops (least : Nat) (t : Tape) : Prop :=
  ∀ op, binaryOp? t.current.kind = some op → op.precedence < least

theorem Tape.exists_of_not_stops {least : Nat} {t : Tape} (goesOn : ¬t.Stops least) :
    ∃ op, binaryOp? t.current.kind = some op ∧ t.current.kind ≠ .eof ∧ least ≤ op.precedence := by
  simp only [Stops, not_forall, Nat.not_lt] at goesOn
  obtain ⟨op, found, binds⟩ := goesOn
  refine ⟨op, found, ?_, binds⟩
  intro ended
  rw [ended] at found
  cases found

theorem BinaryOp.precedence_cases (op : BinaryOp) :
    op.precedence = 10 ∨ op.precedence = 20 ∨ op.precedence = 40 := by
  cases op <;> simp [precedence]

variable {α β γ : Type} {s : Parser} {c : Context} {t : Tape}

theorem Tracked.exists_bind {Q R : Tape → Prop} {p : Nat → Descent α} {f : Nat → α → Descent β}
    {result : Except CompileError (α × Tape)} (first : Tracked s c Q p result)
    (rest : ∀ a s' u, s'.On c u → Q u →
      ∃ result', Tracked s' c R (fun n => f n a) result') :
    ∃ result', Tracked s c R (fun n => p n >>= f n) result' := by
  cases first with
  | @accepted a s' u comes on kept holds =>
    obtain ⟨result', tracked⟩ := rest a s' u on holds
    cases tracked with
    | accepted comes' on' kept' holds' =>
      exact ⟨_, .accepted (comes.bind (.accepted comes')) on' (kept.trans kept') holds'⟩
    | rejected comes' loops blocks =>
      exact ⟨_, .rejected (comes.bind (.accepted comes')) (loops.trans kept.loopDepth)
        (kept.blockDepth ▸ blocks)⟩
  | rejected comes loops blocks => exact ⟨_, .rejected (comes.bind .rejected) loops blocks⟩

namespace Descent

/-! ## Going on with operators -/

section

variable (on : s.On c t)

include on

theorem comes_binaryRest_of_stops {least : Nat} (stops : t.Stops least) (start : Cursor)
    (left : Node) : Comes (fun n => binaryRest n least start left) s (.ok left, s) := by
  refine .deeper rfl (.of_eq fun n => ?_)
  rw [binaryRest, outcome_bind_of_ok (outcome_current on)]
  cases found : binaryOp? t.current.kind with
  | none => rfl
  | some op =>
    simp only [stops op found, if_true]
    rfl

theorem outcome_binaryRest_of_op {least : Nat} {op : BinaryOp}
    (found : binaryOp? t.current.kind = some op) (binds : least ≤ op.precedence) (start : Cursor)
    (left : Node) (n : Nat) :
    outcome (binaryRest (n + 1) least start left) s = outcome (do
      advance
      let right ← binary n (op.precedence + 1)
      binaryRest n least start (.binary (← since start) left op right)) s := by
  rw [binaryRest, outcome_bind_of_ok (outcome_current on), found]
  simp only [Nat.not_lt.2 binds, if_false]

/-- An operator is read with its operand before what follows. -/
theorem comes_binaryRest_of_op {least : Nat} {op : BinaryOp} {start : Cursor} {left : Node}
    (found : binaryOp? t.current.kind = some op) (ahead : t.current.kind ≠ .eof)
    (binds : least ≤ op.precedence) {r r' : Except CompileError Node × Parser}
    (operand : Comes (fun n => binary n (op.precedence + 1))
      { s with index := s.index + 1, readTo := t.current.loc.span.stop } r)
    (rest : Then (fun n right => do
      binaryRest n least start (.binary (← since start) left op right)) r r') :
    Comes (fun n => binaryRest n least start left) s r' := by
  have advanced := Comes.of_eq fun _ => outcome_advance on ahead
  exact .deeper rfl (.congr (outcome_binaryRest_of_op on found binds start left)
    (advanced.bind (.accepted (operand.bind rest))))

end

/-- Nothing is asked of a parser that tells where it has read to. -/
theorem Comes.sinceBind {f : Nat → Location → Descent β} {start : Cursor}
    {r : Except CompileError β × Parser}
    (rest : Comes (fun n => f n ⟨⟨start.offset, max s.readTo start.offset⟩, start.pos⟩) s r) :
    Comes (fun n => since start >>= f n) s r :=
  rest.congr fun n => outcome_bind_of_ok (outcome_since s start) (f n)

/-- Operands between operators are descended along, whatever they are, where fewer than `n` tokens
are ahead. -/
def Climbs (c : Context) (n : Nat) : Prop :=
  ∀ (least : Nat) {s t}, s.On c t → t.rest.length < n →
    ∃ result, Tracked s c (Tape.Under t.rest.length) (fun n => binary n least) result

/-- Operators may be read up to a tighter one first. -/
theorem Climbs.exists_comes_binaryRest {n least tighter : Nat} (climbs : Climbs c n) (on : s.On c t)
    (short : t.rest.length ≤ n) (looser : least ≤ tighter) (start : Cursor) (left : Node) :
    ∃ r, Comes (fun n => binaryRest n tighter start left) s r ∧
      ∀ r', Then (fun n => binaryRest n least start) r r' →
        Comes (fun n => binaryRest n least start left) s r' := by
  generalize length : t.rest.length = m
  induction m using Nat.strong_induction_on generalizing s t left with
  | h m ih =>
    by_cases stops : t.Stops tighter
    · refine ⟨_, comes_binaryRest_of_stops on stops start left, ?_⟩
      intro r' after
      cases after with
      | accepted comes => exact comes
    · obtain ⟨op, found, ahead, binds⟩ := Tape.exists_of_not_stops stops
      have on₁ := on.advance ahead
      have shorter : t.advance.rest.length < m := by
        rw [Tape.rest_advance, List.length_tail]
        have ahead' := List.length_pos_iff.2 (on.rest_ne_nil ahead)
        omega
      have wider : least ≤ op.precedence := Nat.le_trans looser binds
      obtain ⟨result, operand⟩ := climbs (op.precedence + 1) on₁ (by omega)
      cases operand with
      | @accepted right s₂ u₂ comes on₂ _ left₂ =>
        obtain ⟨r, tight, joins⟩ := ih _ (by omega) on₂ (by omega)
          (.binary ⟨⟨start.offset, max s₂.readTo start.offset⟩, start.pos⟩ left op right) rfl
        refine ⟨r, ?_, ?_⟩
        · exact comes_binaryRest_of_op on found ahead binds comes (.accepted tight.sinceBind)
        intro r' after
        exact comes_binaryRest_of_op on found ahead wider comes
          (.accepted (joins r' after).sinceBind)
      | @rejected e s₂ comes _ _ =>
        refine ⟨_, comes_binaryRest_of_op on found ahead binds comes .rejected, ?_⟩
        intro r' after
        cases after with
        | rejected => exact comes_binaryRest_of_op on found ahead wider comes .rejected

/-- An operand and what binds at least as tightly as `tighter` may be read first. -/
theorem Climbs.comes_binary {n least tighter : Nat} (climbs : Climbs c n) (on : s.On c t)
    (short : t.rest.length ≤ n) (looser : least ≤ tighter)
    {operand : Except CompileError (Node × Tape)}
    (tracked : Tracked s c (Tape.Under t.rest.length) unary operand)
    {r r' : Except CompileError Node × Parser} (tight : Comes (fun n => binary n tighter) s r)
    (after : Then (fun n => binaryRest n least t.cursor) r r') :
    Comes (fun n => binary n least) s r' := by
  have reads (least : Nat) {r : Except CompileError Node × Parser}
      (comes : Comes (fun n => unary n >>= binaryRest n least t.cursor) s r) :
      Comes (fun n => binary n least) s r := by
    refine .deeper rfl (comes.congr fun n => ?_)
    rw [binary, outcome_bind_of_ok (outcome_mark on)]
  cases tracked with
  | @accepted left s' u comes on' _ left' =>
    obtain ⟨r₁, tight', joins⟩ :=
      climbs.exists_comes_binaryRest on' (by omega) looser t.cursor left
    have same : r = r₁ := tight.unique (reads tighter (comes.bind (.accepted tight')))
    subst same
    exact reads least (comes.bind (.accepted (joins r' after)))
  | @rejected e s' comes _ _ =>
    have same : r = (.error e, s') := tight.unique (reads tighter (comes.bind .rejected))
    subst same
    cases after with
    | rejected => exact reads least (comes.bind .rejected)

end Descent

namespace Grammar

/-! ## Levels -/

theorem productOp?_eq (kind : TokenKind) :
    productOp? kind = (binaryOp? kind).filter (·.precedence == 40) := by
  cases kind with
  | symbol s => cases s <;> rfl
  | _ => rfl

theorem sumOp?_eq (kind : TokenKind) :
    sumOp? kind = (binaryOp? kind).filter (·.precedence == 20) := by
  cases kind with
  | symbol s => cases s <;> rfl
  | _ => rfl

theorem comparisonOp?_eq (kind : TokenKind) :
    comparisonOp? kind = (binaryOp? kind).filter (·.precedence == 10) := by
  cases kind with
  | symbol s => cases s <;> rfl
  | _ => rfl

theorem run_mark_bind (f : Cursor → Parsing α) (t : Tape) :
    (Parsing.mark >>= f).run t = (f t.cursor).run t := rfl

theorem run_current_bind (f : Token → Parsing α) (t : Tape) :
    (Parsing.current >>= f).run t = (f t.current).run t := rfl

theorem run_chain (op? : TokenKind → Option γ) (combine : Location → Node → γ → Node → Node)
    (operand : Parsing Node) (t : Tape) :
    (chain op? combine operand).run t = (do
      let left ← operand
      chainRest op? combine operand t.cursor (← Parsing.remaining) left : Parsing Node).run t :=
  run_mark_bind _ t

section

variable {op? : TokenKind → Option γ} {combine : Location → Node → γ → Node → Node}
  {operand : Parsing Node} {start : Cursor}

theorem run_chainRest_of_none (ended : op? t.current.kind = none) (k : Nat) (left : Node) :
    (chainRest op? combine operand start k left).run t = .ok (left, t) := by
  cases k with
  | zero => rfl
  | succ k =>
    rw [chainRest, run_current_bind, ended]
    rfl

theorem run_chainRest_of_some {op : γ} (next : op? t.current.kind = some op) (k : Nat)
    (left : Node) :
    (chainRest op? combine operand start (k + 1) left).run t = (do
      Parsing.advance
      let right ← operand
      chainRest op? combine operand start k
        (combine (← Parsing.since start) left op right) : Parsing Node).run t := by
  rw [chainRest, run_current_bind, next]

/-- A descent that goes on like a level goes along with it. -/
theorem tracked_chainRest {p : Nat → Descent Node} {rest : Nat → Node → Descent Node}
    {Q : Tape → Prop} {n : Nat} (closed : op? .eof = none)
    (cut : ∀ s left, Descent.outcome (rest 0 left) s = none)
    (inner : ∀ {s t}, s.On c t → t.rest.length < n →
      Tracked s c (fun u => u.rest.length < t.rest.length ∧ Q u) p (operand.run t))
    (stops : ∀ {s t} left, s.On c t → Q t → op? t.current.kind = none →
      Descent.Comes (fun n => rest n left) s (.ok left, s))
    (goesOn : ∀ {s t} left op, s.On c t → op? t.current.kind = some op → ∀ n,
      Descent.outcome (rest (n + 1) left) s = Descent.outcome (do
        Descent.advance
        let right ← p n
        rest n (combine (← Descent.since start) left op right)) s)
    (k : Nat) (on : s.On c t) (short : t.rest.length ≤ n) (enough : t.rest.length ≤ k)
    (holds : Q t) (left : Node) :
    Tracked s c (fun u => u.rest.length ≤ t.rest.length ∧ Q u ∧ op? u.current.kind = none)
      (fun n => rest n left) ((chainRest op? combine operand start k left).run t) := by
  induction k generalizing s t left with
  | zero =>
    have ended : op? t.current.kind = none := by
      rw [on.kind_of_nil (List.length_eq_zero_iff.1 (Nat.le_zero.1 enough))]
      exact closed
    rw [run_chainRest_of_none ended]
    exact .accepted (stops left on holds ended) on (.refl s) ⟨Nat.le_refl _, holds, ended⟩
  | succ k ih =>
    cases found : op? t.current.kind with
    | none =>
      rw [run_chainRest_of_none found]
      exact .accepted (stops left on holds found) on (.refl s) ⟨Nat.le_refl _, holds, found⟩
    | some op =>
      have ahead : t.current.kind ≠ .eof := by
        intro ended
        rw [ended, closed] at found
        cases found
      rw [run_chainRest_of_some found]
      refine .deeper (cut s left) (.congr (goesOn left op on found) ?_)
      refine (Descent.tracked_advance on ahead).bind ?_
      intro _ s₁ u₁ on₁ left₁
      refine (inner on₁ (by omega)).bind ?_
      intro right s₂ u₂ on₂ ⟨left₂, holds₂⟩
      refine .sinceBind on₂ fun loc => ?_
      refine (ih on₂ (by omega) (by omega) holds₂ _).imp ?_
      intro u ⟨fewer, others⟩
      exact ⟨by omega, others⟩

end

/-! ## Climbing level by level -/

/-- The operators of a level are those that bind as tightly as `tight`, and no others bind at least
as tightly as `least` but less tightly than they. -/
structure BindsAt (op? : TokenKind → Option BinaryOp) (least tight : Nat) : Prop where
  ops : ∀ kind, op? kind = (binaryOp? kind).filter (·.precedence == tight)
  looser : least ≤ tight
  gap : ∀ op : BinaryOp, least ≤ op.precedence → tight ≤ op.precedence

namespace BindsAt

variable {op? : TokenKind → Option BinaryOp} {least tight : Nat} (binds : BindsAt op? least tight)

include binds

/-- Where nothing binds more tightly than the level and none of its operators comes next, nothing
of it or above it does. -/
theorem stops (tighter : t.Stops (tight + 1)) (ended : op? t.current.kind = none) :
    t.Stops least := by
  intro op found
  by_contra goesOn
  have lower := tighter op found
  have upper := binds.gap op (Nat.not_lt.1 goesOn)
  have same : op.precedence = tight := by omega
  rw [binds.ops, found] at ended
  simp [same] at ended

/-- A descent goes on with the operators of the level. -/
theorem outcome_binaryRest (on : s.On c t) {op : BinaryOp} (next : op? t.current.kind = some op)
    (start : Cursor) (left : Node) (n : Nat) :
    Descent.outcome (Descent.binaryRest (n + 1) least start left) s = Descent.outcome (do
      Descent.advance
      let right ← Descent.binary n (tight + 1)
      Descent.binaryRest n least start (.binary (← Descent.since start) left op right)) s := by
  rw [binds.ops, Option.filter_eq_some_iff] at next
  obtain ⟨found, found'⟩ := next
  have same : op.precedence = tight := eq_of_beq found'
  have wider : least ≤ op.precedence := by
    rw [same]
    exact binds.looser
  rw [Descent.outcome_binaryRest_of_op on found wider, same]

end BindsAt

/-- Operators that bind at least as tightly as `least` are read as `q` reads them, and no more of
them comes next. -/
abbrev Climbed (least : Nat) (q : Parsing Node) (s : Parser) (c : Context) (t : Tape) : Prop :=
  Tracked s c (fun u => u.rest.length < t.rest.length ∧ u.Stops least)
    (fun n => Descent.binary n least) (q.run t)

/-- A level is climbed if the next tighter one is. -/
theorem climbed_chain {op? : TokenKind → Option BinaryOp} {least tight n : Nat}
    (binds : BindsAt op? least tight) {q : Parsing Node} (climbs : Descent.Climbs c n)
    {operand : Except CompileError (Node × Tape)}
    (tighter : ∀ {s t}, s.On c t → t.rest.length ≤ n → Climbed (tight + 1) q s c t)
    (on : s.On c t) (short : t.rest.length ≤ n)
    (tracked : Tracked s c (Tape.Under t.rest.length) Descent.unary operand) :
    Climbed least (chain op? .binary q) s c t := by
  have closed : op? .eof = none := by
    rw [binds.ops]
    rfl
  have looser : least ≤ tight + 1 := Nat.le_succ_of_le binds.looser
  rw [Climbed, run_chain]
  refine (tighter on short).bindOf
    (fun _ _ tight after => climbs.comes_binary on short looser tracked tight after) ?_
  intro left s₁ u₁ on₁ ⟨left₁, stops₁⟩
  refine .remainingBind ?_
  refine (tracked_chainRest closed (fun _ _ => rfl)
    (fun on' short' => tighter on' (Nat.le_of_lt short')) ?_ ?_ _ on₁ (by omega) (Nat.le_refl _)
    stops₁ left).imp ?_
  · intro s' t' left' on' stops' ended
    exact Descent.comes_binaryRest_of_stops on' (binds.stops stops' ended) t.cursor left'
  · intro s' t' left' op on' next
    exact binds.outcome_binaryRest on' next t.cursor left'
  · intro u ⟨fewer, stops, ended⟩
    exact ⟨by omega, binds.stops stops ended⟩

/-- What is read of an operand and operators that bind at least as tightly as `least`. -/
def level (g : Grammar) (c : Context) (least : Nat) : Parsing Node :=
  if least ≤ 10 then g.comparison c
  else if least ≤ 20 then g.sum c
  else if least ≤ 40 then g.product c
  else g.factor c

section

variable {g : Grammar} {n least : Nat} (descends : g.Descends n)

include descends

/-- No operator binds more tightly than products. -/
theorem climbed_factor (tightest : 40 < least) (on : s.On c t) (short : t.rest.length ≤ n) :
    Climbed least (g.factor c) s c t := by
  have stops (u : Tape) : u.Stops least := by
    intro op _
    have bounded := op.precedence_cases
    omega
  rw [← bind_pure (g.factor c)]
  refine .deeper rfl ?_
  simp only [Descent.binary]
  refine .congr (fun n => Descent.outcome_bind_of_ok (Descent.outcome_mark on) _) ?_
  refine (along_factor descends on short).bind ?_
  intro left s' u on' fewer
  exact .accepted (Descent.comes_binaryRest_of_stops on' (stops u) t.cursor left) on' (.refl s')
    ⟨fewer, stops u⟩

section

variable (climbs : Descent.Climbs c n)

include climbs

theorem climbed_product (tightest : 20 < least) (loosest : least ≤ 40) (on : s.On c t)
    (short : t.rest.length ≤ n) : Climbed least (g.product c) s c t := by
  have binds : BindsAt productOp? least 40 := by
    refine ⟨productOp?_eq, loosest, ?_⟩
    intro op binds
    have bounded := op.precedence_cases
    omega
  exact climbed_chain binds climbs (climbed_factor descends (by omega)) on short
    (along_factor descends on short)

theorem climbed_sum (tightest : 10 < least) (loosest : least ≤ 20) (on : s.On c t)
    (short : t.rest.length ≤ n) : Climbed least (g.sum c) s c t := by
  have binds : BindsAt sumOp? least 20 := by
    refine ⟨sumOp?_eq, loosest, ?_⟩
    intro op binds
    have bounded := op.precedence_cases
    omega
  exact climbed_chain binds climbs (climbed_product descends climbs (by omega) (by omega)) on
    short (along_factor descends on short)

theorem climbed_comparison (loosest : least ≤ 10) (on : s.On c t)
    (short : t.rest.length ≤ n) : Climbed least (g.comparison c) s c t := by
  have binds : BindsAt comparisonOp? least 10 := by
    refine ⟨comparisonOp?_eq, loosest, ?_⟩
    intro op binds
    have bounded := op.precedence_cases
    omega
  exact climbed_chain binds climbs (climbed_sum descends climbs (by omega) (by omega)) on
    short (along_factor descends on short)

theorem climbed_level_of_climbs (least : Nat) (on : s.On c t) (short : t.rest.length ≤ n) :
    Climbed least (g.level c least) s c t := by
  unfold level
  split
  · exact climbed_comparison descends climbs ‹_› on short
  split
  · exact climbed_sum descends climbs (by omega) ‹_› on short
  split
  · exact climbed_product descends climbs (by omega) ‹_› on short
  · exact climbed_factor descends (by omega) on short

end

/-- An operator takes a token, so that operands are climbed nearer to the end. -/
theorem climbs_of_descends (c : Context) : ∀ m ≤ n + 1, Descent.Climbs c m := by
  intro m
  induction m with
  | zero =>
    intro _ least s t _ short
    exact absurd short (Nat.not_lt_zero _)
  | succ m ih =>
    intro within least s t on short
    have nearer : g.Descends m := descends.mono (by omega)
    have climbed := climbed_level_of_climbs nearer (ih (by omega)) least on (by omega)
    exact ⟨_, climbed.imp fun u left => left.1⟩

theorem climbed_level (least : Nat) (on : s.On c t) (short : t.rest.length ≤ n) :
    Climbed least (g.level c least) s c t :=
  climbed_level_of_climbs descends (climbs_of_descends descends c n (Nat.le_succ n)) least on short

/-- The descent goes on with the logical operators, whose operands are comparisons. -/
theorem tracked_logicalRest (start : Cursor) (k : Nat) (on : s.On c t) (short : t.rest.length ≤ n)
    (enough : t.rest.length ≤ k) (left : Node) :
    Tracked s c (Tape.Under (t.rest.length + 1)) (fun n => Descent.logicalRest n start left)
      ((chainRest logicalOp? .logical (g.comparison c) start k left).run t) := by
  have operand : ∀ {s t}, s.On c t → t.rest.length < n →
      Tracked s c (fun u => u.rest.length < t.rest.length ∧ True)
        (fun n => Descent.binary n 0) ((g.comparison c).run t) := by
    intro s' t' on' short'
    exact (climbed_level descends 0 on' (by omega)).imp fun u climbed => ⟨climbed.1, trivial⟩
  refine (tracked_chainRest rfl (fun _ _ => rfl) operand ?_ ?_ k on short enough trivial
    left).imp ?_
  · intro s' t' left' on' _ ended
    refine .deeper rfl (.of_eq fun n => ?_)
    rw [Descent.logicalRest, Descent.outcome_bind_of_ok (Descent.outcome_current on'), ended]
    rfl
  · intro s' t' left' op on' next n
    rw [Descent.logicalRest, Descent.outcome_bind_of_ok (Descent.outcome_current on'), next]
  · intro u ⟨fewer, _⟩
    omega

theorem along_logical (on : s.On c t) (short : t.rest.length ≤ n) :
    Along Descent.logical (g.logical c) s c t := by
  refine .deeper rfl ?_
  simp only [Descent.logical]
  refine .markBind on ?_
  refine (climbed_level descends 0 on short).bind ?_
  intro left s₁ u₁ on₁ ⟨left₁, _⟩
  refine .remainingBind ?_
  refine (tracked_logicalRest descends t.cursor _ on₁ (by omega) (Nat.le_refl _) left).imp ?_
  intro u fewer
  omega

/-- The descent goes on with operators, however tightly they bind. -/
theorem exists_tracked_binaryRest (least : Nat) (start : Cursor) (on : s.On c t)
    (short : t.rest.length ≤ n) (left : Node) :
    ∃ result, Tracked s c (Tape.Under (t.rest.length + 1))
      (fun n => Descent.binaryRest n least start left) result := by
  generalize length : t.rest.length = m
  induction m using Nat.strong_induction_on generalizing s t left with
  | h m ih =>
    by_cases stops : t.Stops least
    · exact ⟨.ok (left, t), .accepted (Descent.comes_binaryRest_of_stops on stops start left) on
        (.refl s) (by omega)⟩
    · obtain ⟨op, found, ahead, binds⟩ := Tape.exists_of_not_stops stops
      have goesOn : ∃ result, Tracked s c (Tape.Under (m + 1))
          (fun n => do
            Descent.advance
            let right ← Descent.binary n (op.precedence + 1)
            Descent.binaryRest n least start (.binary (← Descent.since start) left op right))
          result := by
        refine (Descent.tracked_advance on ahead).exists_bind ?_
        intro _ s₁ u₁ on₁ left₁
        refine (climbed_level descends (op.precedence + 1) on₁ (by omega)).exists_bind ?_
        intro right s₂ u₂ on₂ ⟨left₂, _⟩
        obtain ⟨result, tracked⟩ := ih _ (by omega) on₂ (by omega)
          (.binary ⟨⟨start.offset, max s₂.readTo start.offset⟩, start.pos⟩ left op right) rfl
        refine ⟨result, .congr (fun n => ?_) (tracked.imp fun u fewer => by omega)⟩
        rw [Descent.outcome_bind_of_ok (Descent.outcome_since s₂ start)]
      obtain ⟨result, tracked⟩ := goesOn
      exact ⟨result, .deeper rfl (tracked.congr
        (Descent.outcome_binaryRest_of_op on found binds start left))⟩

end

end Grammar

end Polyglot
