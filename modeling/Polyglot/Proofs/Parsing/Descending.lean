import Polyglot.Program.Descent
import Polyglot.Proofs.Parsing.Carrying

/-!
# Descents along the grammar

A descent goes along with a rule of the grammar if, from a parser that stands where a tape does, it
comes to what the rule makes of the tape once it may go deep enough: the same result on a parser
that stands where the tape then does, with as many loops and blocks open as before, or the same
rejection. So it has an end that no greater depth changes, and does not crash. What is known of the
tape that is left says how many tokens were taken.
-/

namespace Polyglot

variable {α β : Type}

/-! ## Outcomes -/

/-- What comes of a descent. -/
abbrev Outcome (α : Type) :=
  Option (Except Crash (Except CompileError α × Parser))

namespace Descent

/-- What comes of a descent from a parser. -/
def outcome (p : Descent α) (s : Parser) : Outcome α :=
  ((ExceptT.run p).run s).run

theorem outcome_get (s : Parser) :
    outcome (get : Descent Parser) s = some (.ok (.ok s, s)) := rfl

/-- A descent goes on where its first part was accepted. -/
theorem outcome_bind (p : Descent α) (f : α → Descent β) (s : Parser) :
    outcome (p >>= f) s = (match outcome p s with
      | none => none
      | some (.error crash) => some (.error crash)
      | some (.ok (.error e, s')) => some (.ok (.error e, s'))
      | some (.ok (.ok a, s')) => outcome (f a) s') := by
  show (((ExceptT.run p).run s).run >>= _ : Option _) = _
  unfold outcome
  cases ((ExceptT.run p).run s).run with
  | none => rfl
  | some result =>
    cases result with
    | error crash => rfl
    | ok step =>
      obtain ⟨answer, s'⟩ := step
      cases answer <;> rfl

theorem outcome_bind_of_ok {p : Descent α} {a : α} {s s' : Parser}
    (accepted : outcome p s = some (.ok (.ok a, s'))) (f : α → Descent β) :
    outcome (p >>= f) s = outcome (f a) s' := by
  rw [outcome_bind, accepted]

theorem outcome_since (s : Parser) (start : Cursor) : outcome (since start) s =
    some (.ok (.ok ⟨⟨start.offset, max s.readTo start.offset⟩, start.pos⟩, s)) := rfl

theorem outcome_get_bind (f : Parser → Descent β) (s : Parser) :
    outcome (get >>= f) s = outcome (f s) s :=
  outcome_bind_of_ok (outcome_get s) f

end Descent

/-! ## Parsers that stand where a tape does -/

/-- The parser stands where the tape does, and the context tells what is open. -/
structure Parser.On (s : Parser) (c : Context) (t : Tape) : Prop where
  ahead : s.tokens.toList.drop s.index = t.rest ++ [t.eof]
  closed : t.eof.kind = .eof
  proper : ∀ token ∈ t.rest, token.kind ≠ .eof
  readTo : s.readTo = t.readTo
  dictionary : s.dictionary = c.dictionary
  inLoop : c.inLoop = decide (0 < s.loopDepth)
  inBlock : c.inBlock = decide (0 < s.blockDepth)

/-- Nothing but the place and the end of what was read has changed. -/
structure Parser.Kept (s s' : Parser) : Prop where
  tokens : s'.tokens = s.tokens
  loopDepth : s'.loopDepth = s.loopDepth
  blockDepth : s'.blockDepth = s.blockDepth

namespace Parser

theorem Kept.refl (s : Parser) : s.Kept s :=
  ⟨rfl, rfl, rfl⟩

theorem Kept.trans {s s' s'' : Parser} (first : s.Kept s') (second : s'.Kept s'') : s.Kept s'' :=
  ⟨second.tokens.trans first.tokens, second.loopDepth.trans first.loopDepth,
    second.blockDepth.trans first.blockDepth⟩

namespace On

variable {s : Parser} {c : Context} {t : Tape} (on : s.On c t)

include on

theorem size : s.index + t.rest.length + 1 = s.tokens.size := by
  have lengths := congrArg List.length on.ahead
  simp only [List.length_drop, Array.length_toList, List.length_append, List.length_singleton]
    at lengths
  omega

theorem getElem? : s.tokens[s.index]? = some t.current := by
  have first : (s.tokens.toList.drop s.index)[0]? = some t.current := by
    rw [on.ahead]
    cases tokens : t.rest <;> simp [Tape.current, tokens]
  rw [List.getElem?_drop, Nat.add_zero, Array.getElem?_toList] at first
  exact first

theorem kind_of_nil (ended : t.rest = []) : t.current.kind = .eof := by
  rw [Tape.current_of_nil ended]
  exact on.closed

theorem rest_ne_nil (ahead : t.current.kind ≠ .eof) : t.rest ≠ [] :=
  fun ended => ahead (on.kind_of_nil ended)

theorem nil_of_kind (ended : t.current.kind = .eof) : t.rest = [] := by
  by_contra ahead
  obtain ⟨token, rest, tokens⟩ := List.exists_cons_of_ne_nil ahead
  rw [Tape.current_of_cons tokens] at ended
  exact on.proper token (by simp [tokens]) ended

theorem advance (ahead : t.current.kind ≠ .eof) :
    ({ s with index := s.index + 1, readTo := t.current.loc.span.stop } : Parser).On c
      t.advance := by
  obtain ⟨token, rest, tokens⟩ := List.exists_cons_of_ne_nil (on.rest_ne_nil ahead)
  have taken : t.advance = { t with rest := rest, readTo := token.loc.span.stop } := by
    simp [Tape.advance, tokens]
  rw [Tape.current_of_cons tokens, taken]
  refine ⟨?_, on.closed, ?_, rfl, on.dictionary, on.inLoop, on.inBlock⟩
  · have tail := congrArg (List.drop 1) on.ahead
    rw [List.drop_drop, tokens] at tail
    exact tail
  · intro other member
    exact on.proper other (by simp [tokens, member])

theorem pastEols :
    ((s.tokens.toList.drop s.index).find? fun token => !token.kind.isEol) = some t.pastEols := by
  rw [on.ahead]
  unfold Tape.pastEols
  have closed := on.closed
  generalize t.rest = tokens, t.eof = eof at closed
  induction tokens with
  | nil => simp [closed, TokenKind.isEol]
  | cons token rest ih =>
    by_cases isEol : token.kind.isEol = true
    · simpa [isEol] using ih
    · simp [isEol]

end On

end Parser

/-! ## Descents that go along with a rule -/

/-- The descent comes to the given result if it may go deep enough, and what it comes to at any
depth it comes to a step deeper. So it comes to nothing else and does not crash, however deep it may
go. -/
structure Descent.Comes (p : Nat → Descent α) (s : Parser) (r : Except CompileError α × Parser) :
    Prop where
  rises : ∀ n x, (p n).outcome s = some x → (p (n + 1)).outcome s = some x
  ends : ∃ n, (p n).outcome s = some (.ok r)

/-- What a descent comes to that goes on from a result, unless that is a rejection. -/
inductive Descent.Then (f : Nat → α → Descent β) :
    Except CompileError α × Parser → Except CompileError β × Parser → Prop
  | accepted {a : α} {s : Parser} {r : Except CompileError β × Parser}
    (comes : Comes (fun n => f n a) s r) : Then f (.ok a, s) r
  | rejected {e : CompileError} {s : Parser} : Then f (.error e, s) (.error e, s)

/-- What a descent from a parser comes to is what a rule makes of a tape. The tape that is left has
the given property. A rejection may leave blocks open, but no loop. -/
inductive Tracked (s : Parser) (c : Context) (Q : Tape → Prop) (p : Nat → Descent α) :
    Except CompileError (α × Tape) → Prop
  | accepted {a : α} {s' : Parser} {u : Tape} (comes : Descent.Comes p s (.ok a, s'))
    (on : s'.On c u) (kept : s.Kept s') (holds : Q u) : Tracked s c Q p (.ok (a, u))
  | rejected {e : CompileError} {s' : Parser} (comes : Descent.Comes p s (.error e, s'))
    (loops : s'.loopDepth = s.loopDepth) (blocks : s.blockDepth ≤ s'.blockDepth) :
    Tracked s c Q p (.error e)

/-- Fewer than `n` tokens are ahead. -/
abbrev Tape.Under (n : Nat) (t : Tape) : Prop :=
  t.rest.length < n

namespace Descent.Comes

variable {p p' : Nat → Descent α} {s s' : Parser} {r r' : Except CompileError α × Parser}

theorem of_eq (same : ∀ n, (p n).outcome s = some (.ok r)) : Comes p s r := by
  refine ⟨?_, 0, same 0⟩
  intro n x found
  rw [same (n + 1), ← same n, found]

theorem congr (same : ∀ n, (p n).outcome s = (p' n).outcome s') (comes : Comes p' s' r) :
    Comes p s r := by
  refine ⟨?_, ?_⟩
  · intro n x found
    rw [same] at found ⊢
    exact comes.rises n x found
  · obtain ⟨n, ends⟩ := comes.ends
    exact ⟨n, (same n).trans ends⟩

theorem mono (comes : Comes p s r) {m n : Nat} (deeper : m ≤ n)
    {x : Except Crash (Except CompileError α × Parser)} (found : (p m).outcome s = some x) :
    (p n).outcome s = some x := by
  induction n, deeper using Nat.le_induction with
  | base => exact found
  | succ n _ ih => exact comes.rises n x ih

/-- A descent comes to one result at most, and never crashes. -/
theorem only (comes : Comes p s r) {n : Nat}
    {x : Except Crash (Except CompileError α × Parser)} (found : (p n).outcome s = some x) :
    x = .ok r := by
  obtain ⟨m, ends⟩ := comes.ends
  have there := comes.mono (Nat.le_max_left n m) found
  rw [comes.mono (Nat.le_max_right n m) ends] at there
  exact (Option.some.inj there).symm

theorem unique (comes : Comes p s r) (comes' : Comes p s r') : r = r' := by
  obtain ⟨n, ends⟩ := comes.ends
  exact Except.ok.inj (comes'.only ends)

/-- A descent that is cut off at depth zero comes to what it comes to a step deeper. -/
theorem deeper (cut : (p 0).outcome s = none) (comes : Comes (fun n => p (n + 1)) s r) :
    Comes p s r := by
  refine ⟨?_, ?_⟩
  · intro n x found
    cases n with
    | zero =>
      rw [cut] at found
      cases found
    | succ n => exact comes.rises n x found
  · obtain ⟨n, ends⟩ := comes.ends
    exact ⟨n + 1, ends⟩

theorem shallower (comes : Comes p s r) : Comes (fun n => p (n + 1)) s r := by
  obtain ⟨n, ends⟩ := comes.ends
  exact ⟨fun n => comes.rises (n + 1), n, comes.rises n _ ends⟩

/-- A descent comes to what another one comes to from its result. -/
theorem bind {f : Nat → α → Descent β} {r' : Except CompileError β × Parser}
    (first : Comes p s r) (rest : Then f r r') : Comes (fun n => p n >>= f n) s r' := by
  -- Where the first descent is cut off, both are; otherwise it has come to its result.
  have goesOn (n : Nat) (x) (found : outcome (p n >>= f n) s = some x) :
      (p n).outcome s = some (.ok r) := by
    cases first' : (p n).outcome s with
    | none =>
      rw [outcome_bind, first'] at found
      cases found
    | some y => rw [first.only first']
  obtain ⟨m, ends⟩ := first.ends
  cases rest with
  | accepted comes =>
    obtain ⟨m', ends'⟩ := comes.ends
    refine ⟨?_, max m m', ?_⟩
    · intro n x found
      have before := goesOn n x found
      rw [outcome_bind_of_ok before] at found
      rw [outcome_bind_of_ok (first.rises n _ before)]
      exact comes.rises n x found
    · rw [outcome_bind_of_ok (first.mono (Nat.le_max_left m m') ends)]
      exact comes.mono (Nat.le_max_right m m') ends'
  | rejected =>
    refine ⟨?_, m, ?_⟩
    · intro n x found
      have before := goesOn n x found
      rw [outcome_bind, before] at found
      rw [outcome_bind, first.rises n _ before]
      exact found
    · rw [outcome_bind, ends]

end Descent.Comes

namespace Tracked

open Descent (Comes)

variable {s : Parser} {c : Context} {t : Tape} {Q R : Tape → Prop} {p p' : Nat → Descent α}
  {result : Except CompileError (α × Tape)}

theorem imp (tracked : Tracked s c Q p result) (weaker : ∀ u, Q u → R u) :
    Tracked s c R p result := by
  cases tracked with
  | accepted comes on kept holds => exact .accepted comes on kept (weaker _ holds)
  | rejected comes loops blocks => exact .rejected comes loops blocks

/-- The descent may start with steps that only change the place. -/
theorem of_kept {s' : Parser} (kept : s.Kept s') (same : ∀ n, (p n).outcome s = (p' n).outcome s')
    (tracked : Tracked s' c Q p' result) : Tracked s c Q p result := by
  cases tracked with
  | accepted comes on kept' holds => exact .accepted (comes.congr same) on (kept.trans kept') holds
  | rejected comes loops blocks =>
    exact .rejected (comes.congr same) (loops.trans kept.loopDepth) (kept.blockDepth ▸ blocks)

theorem congr (same : ∀ n, (p n).outcome s = (p' n).outcome s) (tracked : Tracked s c Q p' result) :
    Tracked s c Q p result :=
  tracked.of_kept (.refl s) same

theorem deeper (cut : (p 0).outcome s = none)
    (tracked : Tracked s c Q (fun n => p (n + 1)) result) : Tracked s c Q p result := by
  cases tracked with
  | accepted comes on kept holds => exact .accepted (comes.deeper cut) on kept holds
  | rejected comes loops blocks => exact .rejected (comes.deeper cut) loops blocks

theorem shallower (tracked : Tracked s c Q p result) :
    Tracked s c Q (fun n => p (n + 1)) result := by
  cases tracked with
  | accepted comes on kept holds => exact .accepted comes.shallower on kept holds
  | rejected comes loops blocks => exact .rejected comes.shallower loops blocks

theorem pure (on : s.On c t) (holds : Q t) (a : α) :
    Tracked s c Q (fun _ => pure a) ((pure a : Parsing α).run t) :=
  .accepted (.of_eq fun _ => rfl) on (.refl s) holds

/-- What comes to the same as one descent after another is known from the two. -/
theorem bindOf {whole : Nat → Descent β} {q : Parsing α} {f : Nat → α → Descent β}
    {k : α → Parsing β} (join : ∀ r r', Comes p s r → Descent.Then f r r' → Comes whole s r')
    (first : Tracked s c Q p (q.run t))
    (rest : ∀ a s' u, s'.On c u → Q u → Tracked s' c R (fun n => f n a) ((k a).run u)) :
    Tracked s c R whole ((q >>= k).run t) := by
  rw [StateT.run_bind]
  generalize q.run t = y at first
  cases first with
  | @accepted a s' u comes on kept holds =>
    have goesOn := rest a s' u on holds
    show Tracked s c R _ ((k a).run u)
    generalize (k a).run u = y at goesOn
    cases goesOn with
    | accepted comes' on' kept' holds' =>
      exact .accepted (join _ _ comes (.accepted comes')) on' (kept.trans kept') holds'
    | rejected comes' loops blocks =>
      exact .rejected (join _ _ comes (.accepted comes')) (loops.trans kept.loopDepth)
        (kept.blockDepth ▸ blocks)
  | rejected comes loops blocks => exact .rejected (join _ _ comes .rejected) loops blocks

theorem bind {q : Parsing α} {f : Nat → α → Descent β} {k : α → Parsing β}
    (first : Tracked s c Q p (q.run t))
    (rest : ∀ a s' u, s'.On c u → Q u → Tracked s' c R (fun n => f n a) ((k a).run u)) :
    Tracked s c R (fun n => p n >>= f n) ((q >>= k).run t) :=
  first.bindOf (fun _ _ comes after => comes.bind after) rest

end Tracked

/-! ## Steps -/

/-- Where the next token starts. -/
def Tape.cursor (t : Tape) : Cursor :=
  ⟨t.current.loc.span.start, t.current.loc.pos⟩

theorem Tape.skip_of_not {p : TokenKind → Bool} {t : Tape} (stops : p t.current.kind = false) :
    t.skip p = t := by
  obtain ⟨tokens, eof, readTo⟩ := t
  cases tokens with
  | nil => rfl
  | cons token rest =>
    have stops' : p token.kind = false := stops
    simp [skip, stops']

theorem Tape.skip_advance {p : TokenKind → Bool} {t : Tape} (ahead : t.rest ≠ [])
    (goesOn : p t.current.kind = true) : t.skip p = t.advance.skip p := by
  obtain ⟨token, rest, tokens⟩ := List.exists_cons_of_ne_nil ahead
  rw [current_of_cons tokens] at goesOn
  have last : ∀ l : List Token, ((token :: l).getLast?.map fun x => x.loc.span.stop) =
      some ((l.getLast?.map fun x => x.loc.span.stop).getD token.loc.span.stop) := by
    intro l
    rw [List.getLast?_cons]
    cases l.getLast? <;> rfl
  simp [skip, advance, tokens, goesOn, last]

namespace Descent

variable {s : Parser} {c : Context} {t : Tape}

section

variable (on : s.On c t)

include on

theorem outcome_current : outcome current s = some (.ok (.ok t.current, s)) := by
  have last : min s.index (s.tokens.size - 1) = s.index := by
    have size := on.size
    omega
  rw [current, outcome_get_bind, last, on.getElem?]
  rfl

theorem outcome_at (symbol : Symbol) :
    outcome (at? symbol) s = some (.ok (.ok (t.current.kind.isSymbol symbol), s)) := by
  rw [at?, outcome_bind_of_ok (outcome_current on)]
  rfl

theorem outcome_atKeyword (k : Keyword) :
    outcome (atKeyword? k) s = some (.ok (.ok (t.current.kind.isKeyword k), s)) := by
  rw [atKeyword?, outcome_bind_of_ok (outcome_current on)]
  rfl

theorem outcome_mark : outcome mark s = some (.ok (.ok t.cursor, s)) := by
  rw [mark, outcome_bind_of_ok (outcome_current on)]
  rfl

theorem outcome_pastEols : outcome pastEols s = some (.ok (.ok t.pastEols, s)) := by
  have inside : ¬s.tokens.size < s.index := by
    have size := on.size
    omega
  rw [pastEols, outcome_get_bind, if_neg inside, on.pastEols]
  rfl

theorem outcome_advance (ahead : t.current.kind ≠ .eof) :
    outcome advance s =
      some (.ok (.ok ⟨⟩, { s with index := s.index + 1, readTo := t.current.loc.span.stop })) := by
  rw [advance, outcome_bind_of_ok (outcome_current on)]
  split
  · contradiction
  · rfl

theorem comes_skip_of_not {p : TokenKind → Bool} (stops : p t.current.kind = false) :
    Comes (fun n => skip n p) s (.ok ⟨⟩, s) := by
  refine .deeper rfl (.of_eq fun n => ?_)
  rw [skip, outcome_bind_of_ok (outcome_current on), stops]
  rfl

theorem tracked_advance (ahead : t.current.kind ≠ .eof) :
    Tracked s c (Tape.Under t.rest.length) (fun _ => advance) (Parsing.advance.run t) :=
  .accepted (.of_eq fun _ => outcome_advance on ahead) (on.advance ahead) ⟨rfl, rfl, rfl⟩
    (Tape.length_advance (on.rest_ne_nil ahead))

/-- The end of the script is not taken. -/
theorem tracked_advanceAnyway :
    Tracked s c (Tape.Under (t.rest.length + 1)) (fun _ => advance) (Parsing.advance.run t) := by
  by_cases ended : t.current.kind = .eof
  · have nothing : outcome advance s = some (.ok (.ok ⟨⟩, s)) := by
      rw [advance, outcome_bind_of_ok (outcome_current on), ended]
      rfl
    have stays : t.advance = t := by
      unfold Tape.advance
      rw [on.nil_of_kind ended]
    show Tracked s c _ _ (.ok (PUnit.unit, t.advance))
    rw [stays]
    exact .accepted (.of_eq fun _ => nothing) on (.refl s) (Nat.lt_succ_self _)
  · exact (tracked_advance on ended).imp fun u left => by omega

/-- Tokens are skipped one by one. -/
theorem exists_skip {p : TokenKind → Bool} (closed : p .eof = false) :
    ∃ s', Comes (fun n => skip n p) s (.ok ⟨⟩, s') ∧ s'.On c (t.skip p) ∧ s.Kept s' := by
  generalize length : t.rest.length = m
  induction m generalizing s t with
  | zero =>
    have stops : p t.current.kind = false := by
      rw [on.kind_of_nil (List.length_eq_zero_iff.1 length)]
      exact closed
    exact ⟨s, comes_skip_of_not on stops, (Tape.skip_of_not stops).symm ▸ on, .refl s⟩
  | succ m ih =>
    cases goesOn : p t.current.kind with
    | false => exact ⟨s, comes_skip_of_not on goesOn, (Tape.skip_of_not goesOn).symm ▸ on, .refl s⟩
    | true =>
      have ahead : t.current.kind ≠ .eof := by
        intro ended
        rw [ended, closed] at goesOn
        cases goesOn
      have shorter : t.advance.rest.length = m := by
        rw [Tape.rest_advance, List.length_tail, length]
        rfl
      obtain ⟨s', skipped, on', kept⟩ := ih (on.advance ahead) shorter
      refine ⟨s', .deeper rfl (skipped.congr fun n => ?_), ?_, ?_⟩
      · rw [skip, outcome_bind_of_ok (outcome_current on), if_pos goesOn,
          outcome_bind_of_ok (outcome_advance on ahead)]
      · rw [Tape.skip_advance (on.rest_ne_nil ahead) goesOn]
        exact on'
      · exact ⟨kept.tokens, kept.loopDepth, kept.blockDepth⟩

theorem tracked_skip {p : TokenKind → Bool} (closed : p .eof = false) :
    Tracked s c (Tape.Under (t.rest.length + 1)) (fun n => skip n p)
      ((modify (Tape.skip p) : Parsing PUnit).run t) := by
  obtain ⟨s', skipped, on', kept⟩ := exists_skip on closed
  exact .accepted skipped on' kept (Nat.lt_succ_of_le (Tape.length_skip p t))

theorem tracked_skipEols :
    Tracked s c (Tape.Under (t.rest.length + 1)) skipEols (Parsing.skipEols.run t) :=
  tracked_skip on rfl

theorem tracked_skipSeparators :
    Tracked s c (Tape.Under (t.rest.length + 1)) skipSeparators (Parsing.skipSeparators.run t) :=
  tracked_skip on rfl

end

end Descent

namespace Tracked

variable {s : Parser} {c : Context} {t : Tape} {Q R : Tape → Prop}

theorem reject (fault : GrammarFault) (loc : Location) :
    Tracked s c Q (fun _ => (Descent.reject fault loc : Descent α))
      ((Parsing.reject fault loc : Parsing α).run t) :=
  .rejected (.of_eq fun _ => rfl) rfl (Nat.le_refl _)

/-- The tokens ahead may be counted. -/
theorem remainingBind {p : Nat → Descent β} {k : Nat → Parsing β}
    (rest : Tracked s c R p ((k t.rest.length).run t)) :
    Tracked s c R p ((Parsing.remaining >>= k).run t) :=
  rest

section

variable (on : s.On c t)

include on

/-- A rule may know the next token without a look at it. -/
theorem lookAhead {f : Nat → Token → Descent β} {result : Except CompileError (β × Tape)}
    (rest : Tracked s c R (fun n => f n t.current) result) :
    Tracked s c R (fun n => Descent.current >>= f n) result :=
  rest.congr fun n => Descent.outcome_bind_of_ok (Descent.outcome_current on) (f n)

theorem currentBind {f : Nat → Token → Descent β} {k : Token → Parsing β}
    (rest : Tracked s c R (fun n => f n t.current) ((k t.current).run t)) :
    Tracked s c R (fun n => Descent.current >>= f n) ((Parsing.current >>= k).run t) :=
  lookAhead on rest

theorem unexpected (expected : Expected) (suggestion : Option String) :
    Tracked s c Q (fun _ => (Descent.unexpected expected suggestion : Descent α))
      ((Parsing.unexpected expected suggestion : Parsing α).run t) := by
  refine currentBind on ?_
  cases t.current.kind with
  | _ => exact reject _ _

/-- Nothing follows what is rejected. -/
theorem unexpectedBind (expected : Expected) (suggestion : Option String) (k : α → Parsing β) :
    Tracked s c Q (fun _ => (Descent.unexpected expected suggestion : Descent β))
      ((Parsing.unexpected expected suggestion >>= k).run t) := by
  have same : (Parsing.unexpected expected suggestion >>= k).run t =
      (Parsing.unexpected expected suggestion : Parsing β).run t := by
    rw [StateT.run_bind, Parsing.run_unexpected, Parsing.run_unexpected]
    cases t.current.kind with
    | _ => rfl
  rw [same]
  exact unexpected on _ _

/-- A symbol that is there is taken. -/
theorem advanceOver {symbol : Symbol} (isThere : t.current.kind.isSymbol symbol = true) :
    Tracked s c (Tape.Under t.rest.length) (fun _ => Descent.advance)
      (Parsing.advance.run t) := by
  refine Descent.tracked_advance on ?_
  intro ended
  rw [ended] at isThere
  cases isThere

/-- A keyword that is there is taken. -/
theorem advanceOverKeyword {k : Keyword} (isThere : t.current.kind.isKeyword k = true) :
    Tracked s c (Tape.Under t.rest.length) (fun _ => Descent.advance)
      (Parsing.advance.run t) := by
  refine Descent.tracked_advance on ?_
  intro ended
  rw [ended] at isThere
  cases isThere

theorem atBind {symbol : Symbol} {f : Nat → Bool → Descent β} {k : Bool → Parsing β}
    (rest : ∀ found, t.current.kind.isSymbol symbol = found →
      Tracked s c R (fun n => f n found) ((k found).run t)) :
    Tracked s c R (fun n => Descent.at? symbol >>= f n) ((Parsing.at? symbol >>= k).run t) :=
  (rest _ rfl).congr fun n => Descent.outcome_bind_of_ok (Descent.outcome_at on symbol) (f n)

theorem atKeywordBind {k : Keyword} {f : Nat → Bool → Descent β} {h : Bool → Parsing β}
    (rest : ∀ found, t.current.kind.isKeyword k = found →
      Tracked s c R (fun n => f n found) ((h found).run t)) :
    Tracked s c R (fun n => Descent.atKeyword? k >>= f n) ((Parsing.atKeyword? k >>= h).run t) :=
  (rest _ rfl).congr fun n => Descent.outcome_bind_of_ok (Descent.outcome_atKeyword on k) (f n)

/-- What is done may depend on whether the next token is a symbol. -/
theorem ifAt {symbol : Symbol} {p p' : Nat → Descent β} {q q' : Parsing β}
    (yes : t.current.kind.isSymbol symbol = true → Tracked s c R p (q.run t))
    (no : t.current.kind.isSymbol symbol = false → Tracked s c R p' (q'.run t)) :
    Tracked s c R (fun n => do if ← Descent.at? symbol then p n else p' n)
      ((do if ← Parsing.at? symbol then q else q' : Parsing β).run t) := by
  refine atBind on ?_
  intro found isThere
  cases found with
  | true => exact yes isThere
  | false => exact no isThere

/-- What is done may depend on whether the next token is a keyword. -/
theorem ifAtKeyword {k : Keyword} {p p' : Nat → Descent β} {q q' : Parsing β}
    (yes : t.current.kind.isKeyword k = true → Tracked s c R p (q.run t))
    (no : t.current.kind.isKeyword k = false → Tracked s c R p' (q'.run t)) :
    Tracked s c R (fun n => do if ← Descent.atKeyword? k then p n else p' n)
      ((do if ← Parsing.atKeyword? k then q else q' : Parsing β).run t) := by
  refine atKeywordBind on ?_
  intro found isThere
  cases found with
  | true => exact yes isThere
  | false => exact no isThere

theorem markBind {f : Nat → Cursor → Descent β} {k : Cursor → Parsing β}
    (rest : Tracked s c R (fun n => f n t.cursor) ((k t.cursor).run t)) :
    Tracked s c R (fun n => Descent.mark >>= f n) ((Parsing.mark >>= k).run t) :=
  rest.congr fun n => Descent.outcome_bind_of_ok (Descent.outcome_mark on) (f n)

theorem sinceBind {start : Cursor} {f : Nat → Location → Descent β} {k : Location → Parsing β}
    (rest : ∀ loc, Tracked s c R (fun n => f n loc) ((k loc).run t)) :
    Tracked s c R (fun n => Descent.since start >>= f n) ((Parsing.since start >>= k).run t) := by
  refine (rest ⟨⟨start.offset, max t.readTo start.offset⟩, start.pos⟩).congr fun n => ?_
  rw [Descent.outcome_bind_of_ok (Descent.outcome_since s start), on.readTo]

/-- What was read since a mark becomes a node. -/
theorem made {start : Cursor} {make : Location → β} (holds : R t) :
    Tracked s c R (fun _ => do return make (← Descent.since start))
      ((do return make (← Parsing.since start) : Parsing β).run t) :=
  sinceBind on fun loc => .pure on holds (make loc)

/-- Line ends may be looked past. -/
theorem pastEolsBind {f : Nat → Token → Descent β} {k : Tape → Parsing β}
    (rest : Tracked s c R (fun n => f n t.pastEols) ((k t).run t)) :
    Tracked s c R (fun n => Descent.pastEols >>= f n) (((get : Parsing Tape) >>= k).run t) :=
  rest.congr fun n => Descent.outcome_bind_of_ok (Descent.outcome_pastEols on) (f n)

theorem take (symbol : Symbol) :
    Tracked s c (Tape.Under t.rest.length) (fun _ => Descent.take symbol)
      ((Parsing.take symbol).run t) := by
  refine ifAt on ?_ ?_
  · exact advanceOver on
  · intro _
    exact unexpected on _ _

/-- Taking a symbol that is there needs no look at it. -/
theorem takeThere {symbol : Symbol} (isThere : t.current.kind.isSymbol symbol = true) :
    Tracked s c (Tape.Under t.rest.length) (fun _ => Descent.take symbol)
      (Parsing.advance.run t) := by
  have taken : (Parsing.take symbol).run t = Parsing.advance.run t := by
    show (if t.current.kind.isSymbol symbol = true then Parsing.advance
      else Parsing.unexpected (.symbol symbol)).run t = _
    rw [if_pos isThere]
  rw [← taken]
  exact take on symbol

theorem takeKeyword (k : Keyword) :
    Tracked s c (Tape.Under t.rest.length) (fun _ => Descent.takeKeyword k)
      ((Parsing.takeKeyword c.dictionary k).run t) := by
  refine ifAtKeyword on ?_ ?_
  · exact advanceOverKeyword on
  · intro _
    refine congr (fun _ => Descent.outcome_get_bind _ s) ?_
    rw [on.dictionary]
    exact unexpected on _ _

theorem takeName :
    Tracked s c (Tape.Under t.rest.length) (fun _ => Descent.takeName)
      (Parsing.takeName.run t) := by
  refine currentBind on ?_
  cases kind : t.current.kind with
  | name _ =>
    refine (Descent.tracked_advance on ?_).bind ?_
    · rw [kind]
      exact TokenKind.noConfusion
    · intro _ s' u on' taken
      exact .pure on' taken _
  | _ => exact unexpected on _ _

end

end Tracked

/-! ## What is open -/

namespace Descent

variable {s : Parser}

theorem outcome_enterBlock (s : Parser) :
    outcome enterBlock s = some (.ok (.ok ⟨⟩, { s with blockDepth := s.blockDepth + 1 })) := rfl

theorem outcome_leaveBlock {n : Nat} (depth : s.blockDepth = n + 1) :
    outcome leaveBlock s = some (.ok (.ok ⟨⟩, { s with blockDepth := n })) := by
  obtain ⟨tokens, index, readTo, loopDepth, blockDepth, dictionary⟩ := s
  cases depth
  rfl

theorem run_leaveLoop {n : Nat} (depth : s.loopDepth = n + 1) (result : Except CompileError α) :
    ((do leaveLoop; return result : Moves (Except CompileError α)).run s).run =
      some (.ok (result, { s with loopDepth := n })) := by
  obtain ⟨tokens, index, readTo, loopDepth, blockDepth, dictionary⟩ := s
  cases depth
  rfl

/-- The body of a loop is descended along inside a loop more, which is left again. -/
theorem outcome_loopBody (n : Nat) (s : Parser) : (loopBody (n + 1)).outcome s =
    match (branch n).outcome { s with loopDepth := s.loopDepth + 1 } with
    | none => none
    | some (.error crash) => some (.error crash)
    | some (.ok (result, s')) =>
      ((do leaveLoop; return result : Moves (Except CompileError Node)).run s').run := by
  rw [loopBody]
  show (((ExceptT.run (branch n)).run { s with loopDepth := s.loopDepth + 1 }).run >>= _ :
    Option _) = _
  unfold outcome
  cases ((ExceptT.run (branch n)).run { s with loopDepth := s.loopDepth + 1 }).run with
  | none => rfl
  | some x =>
    cases x with
    | error crash => rfl
    | ok step => rfl

theorem Comes.loopBody {result : Except CompileError Node} {s' : Parser}
    (inside : Comes branch { s with loopDepth := s.loopDepth + 1 } (result, s'))
    (depth : s'.loopDepth = s.loopDepth + 1) :
    Comes loopBody s (result, { s' with loopDepth := s.loopDepth }) := by
  have left {n : Nat} (found : (branch n).outcome { s with loopDepth := s.loopDepth + 1 } =
      some (.ok (result, s'))) : (Descent.loopBody (n + 1)).outcome s =
        some (.ok (result, { s' with loopDepth := s.loopDepth })) := by
    rw [outcome_loopBody, found]
    exact run_leaveLoop depth result
  obtain ⟨m, ends⟩ := inside.ends
  refine .deeper rfl ⟨?_, m, left ends⟩
  intro n x found
  cases before : (branch n).outcome { s with loopDepth := s.loopDepth + 1 } with
  | none =>
    rw [outcome_loopBody, before] at found
    cases found
  | some y =>
    have same : (branch n).outcome { s with loopDepth := s.loopDepth + 1 } =
        some (.ok (result, s')) := by rw [before, inside.only before]
    rw [left same] at found
    rw [left (inside.rises n _ same), found]

end Descent

namespace Tracked

variable {s : Parser} {c : Context} {t : Tape} {Q R : Tape → Prop}

/-- What a rule reads inside a block is descended along between the steps that open the block and
close it. -/
theorem insideBlock (on : s.On c t) {p : Nat → Descent α} {q : Parsing α}
    {f : Nat → α → Descent β} {k : α → Parsing β}
    (first : ∀ s', s'.On { c with inBlock := true } t →
      Tracked s' { c with inBlock := true } Q p (q.run t))
    (rest : ∀ a s' u, s'.On c u → Q u → Tracked s' c R (fun n => f n a) ((k a).run u)) :
    Tracked s c R (fun n => do Descent.enterBlock; let a ← p n; Descent.leaveBlock; f n a)
      ((q >>= k).run t) := by
  have inner := first { s with blockDepth := s.blockDepth + 1 }
    ⟨on.ahead, on.closed, on.proper, on.readTo, on.dictionary, on.inLoop, rfl⟩
  have opened (n : Nat) :
      Descent.outcome (do Descent.enterBlock; let a ← p n; Descent.leaveBlock; f n a) s =
        Descent.outcome (do let a ← p n; Descent.leaveBlock; f n a)
          { s with blockDepth := s.blockDepth + 1 } :=
    Descent.outcome_bind_of_ok (Descent.outcome_enterBlock s) _
  rw [StateT.run_bind]
  generalize q.run t = y at inner
  cases inner with
  | @accepted a s' u comes on' kept holds =>
    have goesOn := rest a { s' with blockDepth := s.blockDepth } u ⟨on'.ahead, on'.closed,
      on'.proper, on'.readTo, on'.dictionary, on'.inLoop, on.inBlock⟩ holds
    have closed (n : Nat) : Descent.outcome (do Descent.leaveBlock; f n a) s' =
        Descent.outcome (f n a) { s' with blockDepth := s.blockDepth } :=
      Descent.outcome_bind_of_ok (Descent.outcome_leaveBlock kept.blockDepth) _
    show Tracked s c R _ ((k a).run u)
    generalize (k a).run u = y at goesOn
    cases goesOn with
    | accepted ends on'' kept' holds' =>
      exact .accepted ((comes.bind (.accepted (ends.congr closed))).congr opened) on''
        ⟨kept'.tokens.trans kept.tokens, kept'.loopDepth.trans kept.loopDepth, kept'.blockDepth⟩
        holds'
    | rejected ends loops blocks =>
      exact .rejected ((comes.bind (.accepted (ends.congr closed))).congr opened)
        (loops.trans kept.loopDepth) blocks
  | rejected comes loops blocks =>
    exact .rejected ((comes.bind .rejected).congr opened) loops (Nat.le_of_succ_le blocks)

/-- What a rule reads inside a loop is descended along as the body of one. -/
theorem insideLoop (on : s.On c t) {q : Parsing Node}
    (inner : ∀ s', s'.On { c with inLoop := true } t →
      Tracked s' { c with inLoop := true } Q Descent.branch (q.run t)) :
    Tracked s c Q Descent.loopBody (q.run t) := by
  have inside := inner { s with loopDepth := s.loopDepth + 1 }
    ⟨on.ahead, on.closed, on.proper, on.readTo, on.dictionary, rfl, on.inBlock⟩
  generalize q.run t = y at inside
  cases inside with
  | accepted comes on' kept holds =>
    exact .accepted (comes.loopBody kept.loopDepth) ⟨on'.ahead, on'.closed, on'.proper,
      on'.readTo, on'.dictionary, on.inLoop, on'.inBlock⟩ ⟨kept.tokens, rfl, kept.blockDepth⟩ holds
  | rejected comes loops blocks => exact .rejected (comes.loopBody loops) rfl blocks

end Tracked

end Polyglot
