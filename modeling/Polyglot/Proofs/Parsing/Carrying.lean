import Mathlib.Data.List.DropRight
import Polyglot.Program.Grammar

/-!
# Reading where more follows

What a rule reads from a tape it also reads, with the same result, if more tokens follow behind a
line end. No rule goes on past the end of a line unless it has to, apart from a conditional that
looks for its alternative; so it is enough that none begins there. The bounds on repetitions may be
larger where more follows. Only a statement takes the line end behind it as well.
-/

namespace Polyglot

variable {α β : Type}

namespace TokenKind

/-- A statement may end before the token, and no operator is there. -/
def EndsLine (kind : TokenKind) : Prop :=
  kind = .eol ∨ kind = .eof

/-- Neither a statement nor an expression begins with the token. -/
def StartsNothing (kind : TokenKind) : Prop :=
  kind = .eof ∨ kind = .keyword .elseKw

theorem EndsLine.isSymbol {kind : TokenKind} (ends : kind.EndsLine) (s : Symbol) :
    kind.isSymbol s = false := by
  rcases ends with rfl | rfl <;> rfl

theorem EndsLine.isKeyword {kind : TokenKind} (ends : kind.EndsLine) (k : Keyword) :
    kind.isKeyword k = false := by
  rcases ends with rfl | rfl <;> rfl

theorem eq_of_isKeyword {kind : TokenKind} {k : Keyword} (h : kind.isKeyword k = true) :
    kind = .keyword k := by
  cases kind with
  | keyword l => exact congrArg keyword (eq_of_beq h)
  | _ => cases h

end TokenKind

/-! ## Tapes -/

namespace Tape

/-- The tape with the tokens and the end of another behind its own tokens. -/
def append (t more : Tape) : Tape where
  rest := t.rest ++ more.rest
  eof := more.eof
  readTo := t.readTo

/-- More may follow where the tape ends: a line ends there in the same place, and no alternative of
a conditional comes next. -/
structure Meets (t more : Tape) : Prop where
  eof : t.eof.kind = .eof
  proper : ∀ token ∈ t.rest, token.kind ≠ .eof
  ends : more.current.kind.EndsLine
  start : more.current.loc.span.start = t.eof.loc.span.start
  pos : more.current.loc.pos = t.eof.loc.pos
  noElse : more.pastEols.kind.isKeyword .elseKw = false

variable {t u more : Tape}

theorem current_append (ahead : t.rest ≠ []) : (t.append more).current = t.current := by
  obtain ⟨token, rest, tokens⟩ := List.exists_cons_of_ne_nil ahead
  simp [append, current, tokens]

theorem current_append_of_nil (ended : t.rest = []) : (t.append more).current = more.current := by
  simp [append, current, ended]

theorem current_of_cons {token : Token} {rest : List Token} (tokens : t.rest = token :: rest) :
    t.current = token := by
  simp [current, tokens]

theorem current_of_nil (ended : t.rest = []) : t.current = t.eof := by
  simp [current, ended]

theorem advance_append (ahead : t.rest ≠ []) :
    (t.append more).advance = t.advance.append more := by
  obtain ⟨token, rest, tokens⟩ := List.exists_cons_of_ne_nil ahead
  simp [append, advance, tokens]

theorem rest_advance (t : Tape) : t.advance.rest = t.rest.tail := by
  unfold advance
  split <;> simp [*]

theorem length_advance (ahead : t.rest ≠ []) : t.advance.rest.length < t.rest.length := by
  obtain ⟨token, rest, tokens⟩ := List.exists_cons_of_ne_nil ahead
  simp [advance, tokens]

theorem eof_advance (t : Tape) : t.advance.eof = t.eof := by
  unfold advance
  split <;> rfl

theorem length_skip (p : TokenKind → Bool) (t : Tape) :
    (t.skip p).rest.length ≤ t.rest.length :=
  (List.dropWhile_sublist _).length_le

theorem skip_append (p : TokenKind → Bool) (ahead : (t.skip p).rest ≠ []) :
    (t.append more).skip p = (t.skip p).append more := by
  have left : (t.rest.dropWhile fun token => p token.kind) ≠ [] := ahead
  have taken : (t.rest.takeWhile fun token => p token.kind).length ≠ t.rest.length := by
    intro all
    have whole := congrArg List.length
      (List.takeWhile_append_dropWhile (l := t.rest) (p := fun token => p token.kind))
    rw [List.length_append, all] at whole
    have none : (t.rest.dropWhile fun token => p token.kind).length = 0 := by omega
    exact left (List.length_eq_zero_iff.1 none)
  simp [skip, append, List.dropWhile_append, List.takeWhile_append, taken, left]

theorem skip_skip (p : TokenKind → Bool) (t : Tape) : (t.skip p).skip p = t.skip p := by
  have again : (t.rest.dropWhile fun token => p token.kind).dropWhile (fun token => p token.kind) =
      t.rest.dropWhile fun token => p token.kind :=
    List.dropWhile_idempotent _ _
  have taken : (t.rest.dropWhile fun token => p token.kind).takeWhile (fun token => p token.kind) =
      [] := by
    have whole := List.takeWhile_append_dropWhile
      (l := t.rest.dropWhile fun token => p token.kind) (p := fun token => p token.kind)
    rw [again] at whole
    exact List.append_left_eq_self.1 whole
  simp [skip, again, taken]

/-- What is skipped up to the end is skipped on behind it. -/
theorem rest_skip_append (p : TokenKind → Bool) (ended : (t.skip p).rest = []) :
    ((t.append more).skip p).rest = (more.skip p).rest := by
  have none : (t.rest.dropWhile fun token => p token.kind) = [] := ended
  simp [skip, append, List.dropWhile_append, none]

namespace Meets

theorem drop (meets : t.Meets more) (same : u.eof = t.eof) (fewer : u.rest ⊆ t.rest) :
    u.Meets more := by
  refine ⟨?_, ?_, meets.ends, ?_, ?_, meets.noElse⟩
  · rw [same]
    exact meets.eof
  · intro token member
    exact meets.proper token (fewer member)
  · rw [same]
    exact meets.start
  · rw [same]
    exact meets.pos

theorem advance (meets : t.Meets more) : t.advance.Meets more := by
  apply meets.drop t.eof_advance
  rw [rest_advance]
  exact (List.tail_sublist _).subset

theorem skip (meets : t.Meets more) (p : TokenKind → Bool) : (t.skip p).Meets more :=
  meets.drop rfl (List.dropWhile_sublist _).subset

theorem rest_of_eof (meets : t.Meets more) (isEof : t.current.kind = .eof) : t.rest = [] := by
  cases tokens : t.rest with
  | nil => rfl
  | cons token rest =>
    rw [current_of_cons tokens] at isEof
    exact absurd isEof (meets.proper token (by simp [tokens]))

theorem kind_of_nil (meets : t.Meets more) (ended : t.rest = []) : t.current.kind = .eof := by
  rw [current_of_nil ended]
  exact meets.eof

theorem pastEols (meets : t.Meets more) :
    (t.append more).pastEols.kind.isKeyword .elseKw = t.pastEols.kind.isKeyword .elseKw := by
  have noElse := meets.noElse
  unfold Tape.pastEols at noElse ⊢
  simp only [append, List.dropWhile_append]
  cases tokens : t.rest.dropWhile fun token => token.kind.isEol with
  | nil =>
    simp only [List.isEmpty_nil, if_true, List.headD_nil, meets.eof]
    exact noElse
  | cons token rest => rfl

/-- An alternative that was found stands on the tape. -/
theorem rest_skip_of_else (meets : t.Meets more)
    (isElse : t.pastEols.kind.isKeyword .elseKw = true) : (t.skip TokenKind.isEol).rest ≠ [] := by
  intro ended
  have none : (t.rest.dropWhile fun token => token.kind.isEol) = [] := ended
  rw [Tape.pastEols, none, List.headD_nil, meets.eof] at isElse
  cases isElse

end Meets

end Tape

/-! ## Parsers -/

namespace Parsing

/-- The parser does not accept the tape. -/
def Rejects (t : Tape) (p : Parsing α) : Prop :=
  ∀ a u, p.run t ≠ .ok (a, u)

/-- What the first parser reads from the first tape, the second one reads from the second tape, and
the tapes that they leave are related. -/
def Carries (L : Tape → Tape → Prop) (more t w : Tape) (p q : Parsing α) : Prop :=
  ∀ a u, p.run t = .ok (a, u) →
    u.Meets more ∧ u.rest.length ≤ t.rest.length ∧ ∃ v, q.run w = .ok (a, v) ∧ L u v

/-- What the first parser reads from a tape, the second one reads where more follows, and leaves
that. -/
abbrev Carried (more t : Tape) (p q : Parsing α) : Prop :=
  Carries (fun u v => v = u.append more) more t (t.append more) p q

variable {t w more : Tape} {p q : Parsing α} {L M : Tape → Tape → Prop}

theorem Rejects.bind {f : α → Parsing β} (rejects : Rejects t p) : Rejects t (p >>= f) := by
  intro a u accepted
  rw [StateT.run_bind] at accepted
  cases result : p.run t with
  | error e =>
    rw [result] at accepted
    cases accepted
  | ok first => exact rejects _ _ result

theorem Rejects.carries (rejects : Rejects t p) : Carries L more t w p q := by
  intro a u accepted
  exact absurd accepted (rejects a u)

theorem carried_pure (meets : t.Meets more) (a : α) :
    Carried more t (pure a : Parsing α) (pure a) := by
  intro b u accepted
  cases accepted
  exact ⟨meets, Nat.le_refl _, _, rfl, rfl⟩

theorem Carries.imp (carries : Carries L more t w p q) (weaker : ∀ u v, L u v → M u v) :
    Carries M more t w p q := by
  intro a u accepted
  obtain ⟨meets, shorter, v, read, related⟩ := carries a u accepted
  exact ⟨meets, shorter, v, read, weaker u v related⟩

theorem Carries.bind {f g : α → Parsing β} (first : Carries L more t w p q)
    (rest : ∀ a u v, u.Meets more → u.rest.length ≤ t.rest.length → L u v →
      Carries M more u v (f a) (g a)) :
    Carries M more t w (p >>= f) (q >>= g) := by
  intro b u' accepted
  rw [StateT.run_bind] at accepted ⊢
  cases result : p.run t with
  | error e =>
    rw [result] at accepted
    cases accepted
  | ok read =>
    obtain ⟨a, u⟩ := read
    rw [result] at accepted
    obtain ⟨meets, shorter, v, read, related⟩ := first a u result
    obtain ⟨meets', shorter', v', read', related'⟩ :=
      rest a u v meets shorter related b u' accepted
    rw [read]
    exact ⟨meets', Nat.le_trans shorter' shorter, v', read', related'⟩

theorem Carried.bind {f g : α → Parsing β} (first : Carried more t p q)
    (rest : ∀ a u, u.Meets more → u.rest.length ≤ t.rest.length →
      Carries L more u (u.append more) (f a) (g a)) :
    Carries L more t (t.append more) (p >>= f) (q >>= g) := by
  apply Carries.bind first
  rintro a u _ meets shorter rfl
  exact rest a u meets shorter

theorem Carried.map {k : α → β} (first : Carried more t p q) :
    Carried more t (k <$> p) (k <$> q) := by
  rw [map_eq_pure_bind, map_eq_pure_bind]
  apply first.bind
  intro a u meets _
  exact carried_pure meets (k a)

/-! ### Looking ahead -/

/-- At the end of the tape, a line ends where more follows. -/
theorem carries_lineEndBind {p : Parsing β} {g : Token → Parsing β} (meets : t.Meets more)
    (ended : t.rest = [])
    (rest : more.current.kind.EndsLine → Carries L more t (t.append more) p (g more.current)) :
    Carries L more t (t.append more) p (current >>= g) := by
  have carries := rest meets.ends
  rw [← Tape.current_append_of_nil ended] at carries
  exact carries

/-- The next token is the same unless the tape is at its end. -/
theorem carries_currentBind {f g : Token → Parsing β} (meets : t.Meets more)
    (ahead : t.rest ≠ [] → Carries L more t (t.append more) (f t.current) (g t.current))
    (ended : t.rest = [] → t.current.kind = .eof → more.current.kind.EndsLine →
      Carries L more t (t.append more) (f t.current) (g more.current)) :
    Carries L more t (t.append more) (current >>= f) (current >>= g) := by
  by_cases last : t.rest = []
  · apply carries_lineEndBind (p := current >>= f) meets last
    exact ended last (meets.kind_of_nil last)
  · intro b u accepted
    obtain ⟨meets', shorter, v, read, related⟩ := ahead last b u accepted
    rw [← Tape.current_append last] at read
    exact ⟨meets', shorter, v, read, related⟩

theorem carries_atBind {f g : Bool → Parsing β} (meets : t.Meets more) (s : Symbol)
    (rest : ∀ found, (found = true → t.rest ≠ []) →
      Carries L more t (t.append more) (f found) (g found)) :
    Carries L more t (t.append more) (at? s >>= f) (at? s >>= g) := by
  refine carries_currentBind (f := fun token => f (token.kind.isSymbol s))
    (g := fun token => g (token.kind.isSymbol s)) meets ?_ ?_
  · intro ahead
    exact rest _ fun _ => ahead
  · intro _ isEof ends
    rw [isEof, ends.isSymbol]
    exact rest false (by simp)

theorem carries_atKeywordBind {f g : Bool → Parsing β} (meets : t.Meets more) (k : Keyword)
    (rest : ∀ found, (found = true → t.rest ≠ []) →
      Carries L more t (t.append more) (f found) (g found)) :
    Carries L more t (t.append more) (atKeyword? k >>= f) (atKeyword? k >>= g) := by
  refine carries_currentBind (f := fun token => f (token.kind.isKeyword k))
    (g := fun token => g (token.kind.isKeyword k)) meets ?_ ?_
  · intro ahead
    exact rest _ fun _ => ahead
  · intro _ isEof ends
    rw [isEof, ends.isKeyword]
    exact rest false (by simp)

theorem carries_markBind {f g : Cursor → Parsing β} (meets : t.Meets more)
    (rest : ∀ start, Carries L more t (t.append more) (f start) (g start)) :
    Carries L more t (t.append more) (mark >>= f) (mark >>= g) := by
  have same : (⟨(t.append more).current.loc.span.start, (t.append more).current.loc.pos⟩ : Cursor) =
      ⟨t.current.loc.span.start, t.current.loc.pos⟩ := by
    by_cases last : t.rest = []
    · rw [Tape.current_append_of_nil last, Tape.current_of_nil last, meets.start, meets.pos]
    · rw [Tape.current_append last]
  intro b u accepted
  obtain ⟨meets', shorter, v, read, related⟩ := rest _ b u accepted
  rw [← same] at read
  exact ⟨meets', shorter, v, read, related⟩

/-- The tape itself is only looked at for an alternative. -/
theorem carries_getBind {f g : Tape → Parsing β}
    (rest : Carries L more t (t.append more) (f t) (g (t.append more))) :
    Carries L more t (t.append more) (get >>= f) (get >>= g) := by
  intro b u accepted
  exact rest b u accepted

theorem carries_sinceBind {f g : Location → Parsing β} (start : Cursor)
    (rest : ∀ loc, Carries L more t (t.append more) (f loc) (g loc)) :
    Carries L more t (t.append more) (since start >>= f) (since start >>= g) := by
  intro b u accepted
  exact rest _ b u accepted

/-- What is made of all that was read since a mark is the same. -/
theorem carried_made (meets : t.Meets more) (start : Cursor) (make : Location → β) :
    Carried more t (since start >>= fun loc => pure (make loc))
      (since start >>= fun loc => pure (make loc)) := by
  apply carries_sinceBind start
  intro loc
  exact carried_pure meets _

/-- There is more left where more follows. -/
theorem carries_remainingBind {f g : Nat → Parsing β}
    (rest : ∀ n, t.rest.length ≤ n → Carries L more t (t.append more) (f t.rest.length) (g n)) :
    Carries L more t (t.append more) (remaining >>= f) (remaining >>= g) := by
  intro b u accepted
  have longer : t.rest.length ≤ (t.append more).rest.length := by
    simp [Tape.append]
  exact rest _ longer b u accepted

/-! ### Taking tokens -/

theorem carried_advance (meets : t.Meets more) (ahead : t.rest ≠ []) :
    Carried more t advance advance := by
  intro a u accepted
  cases accepted
  exact ⟨meets.advance, Nat.le_of_lt (Tape.length_advance ahead), _, rfl,
    Tape.advance_append ahead⟩

/-- One token less is left for what comes after. -/
theorem carries_advanceBind {f g : Unit → Parsing β} (meets : t.Meets more) (ahead : t.rest ≠ [])
    (rest : ∀ u, u.Meets more → u.rest.length < t.rest.length →
      Carries L more u (u.append more) (f ()) (g ())) :
    Carries L more t (t.append more) (advance >>= f) (advance >>= g) := by
  intro b u accepted
  have fewer := Tape.length_advance ahead
  obtain ⟨meets', shorter, v, read, related⟩ := rest t.advance meets.advance fewer b u accepted
  rw [← Tape.advance_append ahead] at read
  exact ⟨meets', by omega, v, read, related⟩

/-- What is skipped before a token is skipped alike. -/
theorem carries_skipAheadBind {f g : PUnit → Parsing β} {p : TokenKind → Bool}
    (ahead : (t.skip p).rest ≠ [])
    (rest : Carries L more (t.skip p) ((t.skip p).append more) (f ⟨⟩) (g ⟨⟩)) :
    Carries L more t (t.append more) (modify (Tape.skip p) >>= f) (modify (Tape.skip p) >>= g) := by
  intro b u accepted
  have fewer := Tape.length_skip p t
  obtain ⟨meets, shorter, v, read, related⟩ := rest b u accepted
  rw [← Tape.skip_append p ahead] at read
  exact ⟨meets, by omega, v, read, related⟩

/-- At the end alone more may be skipped where more follows, so it matters what comes next. -/
theorem carries_skipBind {f g : PUnit → Parsing β} (meets : t.Meets more) (p : TokenKind → Bool)
    (needs : ∀ u, u.current.kind = .eof → Rejects u (f ⟨⟩))
    (rest : ∀ u, u.Meets more → Carries L more u (u.append more) (f ⟨⟩) (g ⟨⟩)) :
    Carries L more t (t.append more) (modify (Tape.skip p) >>= f) (modify (Tape.skip p) >>= g) := by
  have meets' := meets.skip p
  by_cases ended : (t.skip p).rest = []
  · intro b u accepted
    exact absurd accepted (needs _ (meets'.kind_of_nil ended) b u)
  · exact carries_skipAheadBind ended (rest _ meets')

theorem run_unexpected (t : Tape) (expected : Expected) (suggestion : Option String) :
    (unexpected expected suggestion : Parsing α).run t =
      (match t.current.kind with
        | .invalid text => reject (.strayCharacter text suggestion) t.current.loc
        | _ => reject (.unexpected expected (found t.current) suggestion) t.current.loc
          : Parsing α).run t := rfl

theorem rejects_unexpected (t : Tape) (expected : Expected) (suggestion : Option String) :
    Rejects t (unexpected expected suggestion : Parsing α) := by
  intro a u accepted
  rw [run_unexpected] at accepted
  split at accepted <;> cases accepted

theorem rejects_reject (t : Tape) (fault : GrammarFault) (loc : Location) :
    Rejects t (reject fault loc : Parsing α) := by
  intro a u accepted
  cases accepted

theorem carried_take (meets : t.Meets more) (s : Symbol) : Carried more t (take s) (take s) := by
  apply carries_atBind meets s
  intro found ahead
  split
  · rename_i isThere
    exact carried_advance meets (ahead isThere)
  · exact (rejects_unexpected t _ _).carries

theorem carried_takeKeyword (meets : t.Meets more) (d : Dictionary) (k : Keyword) :
    Carried more t (takeKeyword d k) (takeKeyword d k) := by
  apply carries_atKeywordBind meets k
  intro found ahead
  split
  · rename_i isThere
    exact carried_advance meets (ahead isThere)
  · exact (rejects_unexpected t _ _).carries

theorem carried_takeName (meets : t.Meets more) : Carried more t takeName takeName := by
  apply carries_currentBind meets
  · intro ahead
    split
    · apply carries_advanceBind meets ahead
      intro u meets' _
      exact carried_pure meets' _
    · exact (rejects_unexpected t _ _).carries
  · intro _ isEof _
    rw [isEof]
    exact (rejects_unexpected t _ _).carries

end Parsing

end Polyglot
