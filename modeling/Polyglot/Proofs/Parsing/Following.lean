import Polyglot.Proofs.Parsing.CarriedRules
import Polyglot.Proofs.Parsing.Rules

/-!
# Programs that follow each other

Where the tokens of one script are followed by a line end and the tokens of another, the statements
of the first are followed by those of the second. What separates them is skipped, whether a
statement took the line end or not, and the second script is read as by itself, since larger bounds
make no difference.
-/

namespace Polyglot

open Parsing

variable {t more : Tape}

/-! ## Separators -/

/-- The tape without the line ends and semicolons that come next. -/
def Tape.pastSeparators (t : Tape) : Tape :=
  t.skip fun kind => kind.isEol || kind.isSymbol .semi

/-- The alternative of a conditional is not skipped. -/
theorem Tape.current_pastSeparators (isElse : t.pastEols.kind.isKeyword .elseKw = true) :
    t.pastSeparators.current = t.pastEols := by
  unfold pastEols at isElse ⊢
  show (t.rest.dropWhile _).headD t.eof = _
  generalize t.rest = tokens at isElse
  induction tokens with
  | nil => rfl
  | cons token rest ih =>
    by_cases isEol : token.kind.isEol = true
    · simp only [List.dropWhile_cons, isEol, Bool.true_or, if_true] at isElse ⊢
      exact ih isElse
    · rw [List.dropWhile_cons, if_neg isEol] at isElse
      have kind : token.kind = .keyword .elseKw := TokenKind.eq_of_isKeyword isElse
      simp [kind, TokenKind.isEol, TokenKind.isSymbol]

theorem Tape.pastEols_advance (isEol : t.current.kind = .eol) :
    t.advance.pastEols = t.pastEols := by
  unfold pastEols
  rw [rest_advance, eof_advance]
  cases tokens : t.rest with
  | nil => rfl
  | cons token rest =>
    rw [current_of_cons tokens] at isEol
    simp [isEol, TokenKind.isEol]

/-- A line end may be taken before what is skipped anyway. -/
theorem Tape.rest_pastSeparators {v : Tape} (isEol : t.current.kind = .eol)
    (tail : v.rest = t.rest.tail) : v.pastSeparators.rest = t.pastSeparators.rest := by
  simp only [pastSeparators, skip, tail]
  cases tokens : t.rest with
  | nil => rfl
  | cons token rest =>
    rw [current_of_cons tokens] at isEol
    simp [isEol, TokenKind.isEol]

namespace Grammar

/-! ## Statements -/

/-- Separators before a statement are skipped, and a program ends where nothing else is left. -/
theorem run_programUpTo_succ (statement : Parsing Node) (n : Nat) (t : Tape) :
    (programUpTo statement (n + 1)).run t = (match t.pastSeparators.current.kind with
      | .eof => pure []
      | _ => do
        let first ← statement
        return first :: (← programUpTo statement n) : Parsing (List Node)).run
          t.pastSeparators := rfl

theorem run_programUpTo_of_eof (statement : Parsing Node) (n : Nat)
    (isEof : t.pastSeparators.current.kind = .eof) :
    (programUpTo statement (n + 1)).run t = .ok ([], t.pastSeparators) := by
  rw [run_programUpTo_succ, isEof]
  rfl

theorem run_programUpTo_of_ne_eof (statement : Parsing Node) (n : Nat)
    (ahead : t.pastSeparators.current.kind ≠ .eof) :
    (programUpTo statement (n + 1)).run t = (do
      let first ← statement
      return first :: (← programUpTo statement n) : Parsing (List Node)).run
        t.pastSeparators := by
  rw [run_programUpTo_succ]
  split
  · contradiction
  · rfl

theorem run_cons (rest : Parsing (List Node)) (node : Node) (t : Tape) :
    (rest >>= fun ns => pure (node :: ns)).run t =
      (rest.run t).map fun result => (node :: result.1, result.2) := by
  rw [StateT.run_bind]
  cases rest.run t <;> rfl

theorem exists_of_run_cons {rest : Parsing (List Node)} {node : Node} {u : Tape}
    {body : List Node} (read : (rest >>= fun ns => pure (node :: ns)).run t = .ok (body, u)) :
    ∃ ns, rest.run t = .ok (ns, u) ∧ body = node :: ns := by
  rw [run_cons] at read
  cases result : rest.run t with
  | error e =>
    rw [result] at read
    cases read
  | ok others =>
    rw [result] at read
    cases read
    exact ⟨others.1, rfl, rfl⟩

/-- At the end no statement is left. -/
theorem run_programUpTo_of_nil {statement : Parsing Node} {n : Nat} (meets : t.Meets more)
    (ended : t.rest = []) {body : List Node} {u : Tape}
    (read : (programUpTo statement n).run t = .ok (body, u)) : body = [] ∧ 0 < n := by
  cases n with
  | zero => exact absurd read (rejects_unexpected t _ _ body u)
  | succ n =>
    have nothing : t.pastSeparators.rest = [] := by
      simp [Tape.pastSeparators, Tape.skip, ended]
    have meets' : t.pastSeparators.Meets more := meets.skip _
    rw [run_programUpTo_of_eof statement n (meets'.kind_of_nil nothing)] at read
    cases read
    exact ⟨rfl, Nat.succ_pos n⟩

/-- The statements of a program are followed by those of what comes behind it. -/
theorem exists_run_programUpTo {statement statement' : Parsing Node}
    (inner : ∀ t, t.Meets more →
      Carries (Tape.LeadsTo more) more t (t.append more) statement statement') {n m : Nat}
    (enough : n ≤ m) (meets : t.Meets more) {body : List Node} {u : Tape}
    (read : (programUpTo statement n).run t = .ok (body, u)) :
    ∃ k v, m - n < k ∧ v.eof = more.eof ∧ v.pastSeparators.rest = more.pastSeparators.rest ∧
      (programUpTo statement' m).run (t.append more) =
        ((programUpTo statement' k).run v).map fun result => (body ++ result.1, result.2) := by
  induction n generalizing m t body u with
  | zero => exact absurd read (rejects_unexpected t _ _ body u)
  | succ n ih =>
    obtain ⟨m, rfl⟩ := Nat.exists_eq_add_of_le' enough
    have meets' : t.pastSeparators.Meets more := meets.skip _
    by_cases isEof : t.pastSeparators.current.kind = .eof
    · rw [run_programUpTo_of_eof statement n isEof] at read
      cases read
      refine ⟨m + (n + 1), t.append more, by omega, rfl,
        Tape.rest_skip_append _ (meets'.rest_of_eof isEof), ?_⟩
      cases (programUpTo statement' (m + (n + 1))).run (t.append more) <;> rfl
    · have ahead : t.pastSeparators.rest ≠ [] := by
        intro ended
        exact isEof (meets'.kind_of_nil ended)
      have same : (t.append more).pastSeparators = t.pastSeparators.append more :=
        Tape.skip_append _ ahead
      have isEof' : (t.append more).pastSeparators.current.kind ≠ .eof := by
        rw [same, Tape.current_append ahead]
        exact isEof
      rw [run_programUpTo_of_ne_eof statement n isEof, StateT.run_bind] at read
      cases first : statement.run t.pastSeparators with
      | error e =>
        rw [first] at read
        cases read
      | ok one =>
        obtain ⟨node, u'⟩ := one
        rw [first] at read
        obtain ⟨meetsRest, -, v, taken, leads⟩ := inner _ meets' node u' first
        obtain ⟨rest, others, rfl⟩ := exists_of_run_cons read
        have goesOn : (programUpTo statement' (m + (n + 1))).run (t.append more) =
            ((programUpTo statement' (m + n)).run v).map fun result =>
              (node :: result.1, result.2) := by
          rw [← Nat.add_assoc, run_programUpTo_of_ne_eof statement' (m + n) isEof', same,
            StateT.run_bind, taken]
          exact run_cons _ _ _
        rw [goesOn]
        rcases leads with rfl | ⟨ended, isEol, tail, sameEof⟩
        · obtain ⟨k, w, left, sameEof, skipped, follows⟩ :=
            ih (Nat.le_add_left n m) meetsRest others
          refine ⟨k, w, by omega, sameEof, skipped, ?_⟩
          rw [follows]
          cases (programUpTo statement' k).run w <;> rfl
        · -- The statement was the last one, and what it took behind it is a separator.
          obtain ⟨rfl, positive⟩ := run_programUpTo_of_nil meetsRest ended others
          refine ⟨m + n, v, by omega, sameEof, ?_, rfl⟩
          exact Tape.rest_pastSeparators isEol tail

/-- Larger bounds read the same program. -/
theorem exists_run_programUpTo_of_le (c : Context) {i j n m : Nat} (deeper : i ≤ j)
    (enough : n ≤ m) (closed : t.eof.kind = .eof) (proper : ∀ token ∈ t.rest, token.kind ≠ .eof)
    {body : List Node} {u : Tape}
    (read : (programUpTo ((upTo i).statement c) n).run t = .ok (body, u)) :
    ∃ v, (programUpTo ((upTo j).statement c) m).run t = .ok (body, v) := by
  -- This is the case in which nothing follows.
  have meets : t.Meets { rest := [], eof := t.eof } := by
    refine ⟨closed, proper, .inr closed, rfl, rfl, ?_⟩
    show t.eof.kind.isKeyword .elseKw = false
    rw [closed]
    rfl
  have whole : t.append { rest := [], eof := t.eof } = t := by
    simp [Tape.append]
  obtain ⟨k, v, left, sameEof, skipped, follows⟩ :=
    exists_run_programUpTo ((carriedBy_upTo deeper).statement c) enough meets read
  obtain ⟨k, rfl⟩ := Nat.exists_eq_succ_of_ne_zero (Nat.ne_zero_of_lt left)
  have isEof : v.pastSeparators.current.kind = .eof := by
    rw [Tape.current_of_nil skipped]
    show v.eof.kind = .eof
    rw [sameEof]
    exact closed
  rw [whole, run_programUpTo_of_eof _ k isEof] at follows
  refine ⟨v.pastSeparators, ?_⟩
  rw [follows]
  simp [Except.map]

theorem run_programUpTo_pastSeparators (statement : Parsing Node) (n : Nat) (t : Tape) :
    (programUpTo statement (n + 1)).run t.pastSeparators =
      (programUpTo statement (n + 1)).run t := by
  have again : t.pastSeparators.pastSeparators = t.pastSeparators := Tape.skip_skip _ t
  by_cases isEof : t.pastSeparators.current.kind = .eof
  · rw [run_programUpTo_of_eof statement n isEof, run_programUpTo_of_eof statement n, again]
    rw [again]
    exact isEof
  · rw [run_programUpTo_of_ne_eof statement n isEof, run_programUpTo_of_ne_eof statement n, again]
    rw [again]
    exact isEof

/-- No program begins with the alternative of a conditional. -/
theorem pastEols_of_run_programUpTo (c : Context) (i n : Nat) {body : List Node} {u : Tape}
    (read : (programUpTo ((upTo i).statement c) n).run t = .ok (body, u)) :
    t.pastEols.kind.isKeyword .elseKw = false := by
  cases n with
  | zero => exact absurd read (rejects_unexpected t _ _ body u)
  | succ n =>
    cases found : t.pastEols.kind.isKeyword .elseKw with
    | false => rfl
    | true =>
      have isElse : t.pastSeparators.current.kind = .keyword .elseKw := by
        rw [Tape.current_pastSeparators found]
        exact TokenKind.eq_of_isKeyword found
      rw [run_programUpTo_of_ne_eof _ n (by rw [isElse]; exact TokenKind.noConfusion)] at read
      exact absurd read ((rejects_statement i c (.inr isElse)).bind body u)

/-! ## Two programs -/

theorem run_program (d : Dictionary) (t : Tape) :
    (program d).run t = (programUpTo ((upTo (2 * t.rest.length + 2)).statement { dictionary := d })
      (t.rest.length + 1)).run t := by
  have counted : ∀ f : Nat → Parsing (List Node),
      (remaining >>= f).run t = (f t.rest.length).run t := fun _ => rfl
  rw [program, counted]

/-- The tape of one script, the tape that follows it behind a line end, and the tape of which the
latter is a copy in another place. -/
structure Seam (t more own : Tape) : Prop where
  closed : t.eof.kind = .eof
  closedMore : more.eof.kind = .eof
  closedOwn : own.eof.kind = .eof
  proper : ∀ token ∈ t.rest ++ more.rest, token.kind ≠ .eof
  lineEnd : more.current.kind = .eol
  start : more.current.loc.span.start = t.eof.loc.span.start
  pos : more.current.loc.pos = t.eof.loc.pos
  same : SameTokens own.rest more.rest.tail

namespace Seam

variable {t more own : Tape} (seam : Seam t more own)

include seam

theorem alike : own.Alike more.advance := by
  refine ⟨?_, seam.closedOwn, ?_⟩
  · rw [more.rest_advance]
    exact seam.same
  · rw [more.eof_advance]
    exact seam.closedMore

/-- A script that is accepted by itself may follow. -/
theorem meets {d : Dictionary} {body : List Node} {u : Tape}
    (read : (program d).run own = .ok (body, u)) : t.Meets more := by
  rw [run_program] at read
  have noElse := pastEols_of_run_programUpTo _ _ _ read
  rw [seam.alike.pastEols, Tape.pastEols_advance seam.lineEnd] at noElse
  refine ⟨seam.closed, ?_, .inl seam.lineEnd, seam.start, seam.pos, noElse⟩
  intro token member
  exact seam.proper token (List.mem_append_left _ member)

end Seam

/-- A program is followed by the program of what comes behind a line end. -/
theorem exists_run_program (d : Dictionary) {t more own u u' : Tape} {body body' : List Node}
    (seam : Seam t more own) (read : (program d).run t = .ok (body, u))
    (read' : (program d).run own = .ok (body', u')) :
    ∃ moved v, (program d).run (t.append more) = .ok (body ++ moved, v) ∧
      List.Forall₂ (Node.Alike .outside) body' moved := by
  have meets := seam.meets read'
  have size : (t.append more).rest.length = t.rest.length + more.rest.length := by
    simp [Tape.append]
  have size' : own.rest.length ≤ more.rest.length := by
    rw [seam.same.length_eq, List.length_tail]
    omega
  rw [run_program] at read read' ⊢
  have deeper : 2 * t.rest.length + 2 ≤ 2 * (t.append more).rest.length + 2 := by omega
  have deeper' : 2 * own.rest.length + 2 ≤ 2 * (t.append more).rest.length + 2 := by omega
  have enough : t.rest.length + 1 ≤ (t.append more).rest.length + 1 := by omega
  obtain ⟨k, v, left, sameEof, skipped, follows⟩ := exists_run_programUpTo
    ((carriedBy_upTo deeper).statement { dictionary := d }) enough meets read
  -- What is left is the other program, moved.
  have alike : own.pastSeparators.Alike v.pastSeparators := by
    have skippedAlike : SameTokens own.pastSeparators.rest more.advance.pastSeparators.rest :=
      (seam.alike.skip _).tokens
    refine ⟨?_, seam.closedOwn, ?_⟩
    · rw [skipped, ← Tape.rest_pastSeparators seam.lineEnd more.rest_advance]
      exact skippedAlike
    · show v.eof.kind = .eof
      rw [sameEof]
      exact seam.closedMore
  have outside : Context.Alike { dictionary := d } { dictionary := d } := ⟨rfl, rfl⟩
  have agreed := agree_programUpTo
    ((consistent_upTo (2 * own.rest.length + 2)).statement outside) (own.rest.length + 1)
    own.pastSeparators v.pastSeparators alike
  rw [run_programUpTo_pastSeparators, read'] at agreed
  generalize result : (programUpTo _ _).run v.pastSeparators = there at agreed
  cases agreed with
  | @accepted _ moved _ x related _ =>
    have properRest : ∀ token ∈ v.pastSeparators.rest, token.kind ≠ .eof := by
      intro token member
      rw [skipped] at member
      have listed : token ∈ more.rest := (List.dropWhile_sublist _).subset member
      exact seam.proper token (List.mem_append_right _ listed)
    have room : own.rest.length + 1 ≤ k := by omega
    obtain ⟨y, readAll⟩ := exists_run_programUpTo_of_le { dictionary := d } deeper' room
      alike.eof' properRest result
    obtain ⟨k, rfl⟩ := Nat.exists_eq_succ_of_ne_zero (Nat.ne_zero_of_lt left)
    rw [Nat.succ_eq_add_one, run_programUpTo_pastSeparators] at readAll
    refine ⟨moved, y, ?_, related⟩
    rw [follows, readAll]
    rfl

end Grammar

end Polyglot
