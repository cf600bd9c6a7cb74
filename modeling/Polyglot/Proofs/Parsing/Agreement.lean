import Polyglot.Program.Tape

/-!
# Parsers that agree

Two parsers agree if on tapes that differ only in what the grammar does not look at they both
reject, or both accept with related results and leave such tapes again. The grammar looks at the
kinds of tokens, never at their locations, and at the text of a token only where it is the key of
a property.
-/

namespace Polyglot

variable {α β γ δ : Type}

theorem TokenKind.eq_of_isSymbol {kind : TokenKind} {s : Symbol} (h : kind.isSymbol s = true) :
    kind = .symbol s := by
  cases kind with
  | symbol t => exact congrArg symbol (eq_of_beq h)
  | _ => cases h

/-- The tokens begin with a colon. -/
def Token.ColonFirst (tokens : List Token) : Prop :=
  tokens.head?.map Token.kind = some (.symbol .colon)

/-- Tokens of the same kinds, in which names and the keywords before a colon are spelled alike. -/
inductive SameTokens : List Token → List Token → Prop
  | nil : SameTokens [] []
  | cons {token token' : Token} {rest rest' : List Token} (kind : token.kind = token'.kind)
      (name : ∀ s, token.kind = .name s → token.text = token'.text)
      (key : ∀ k, token.kind = .keyword k → Token.ColonFirst rest → token.text = token'.text)
      (tail : SameTokens rest rest') : SameTokens (token :: rest) (token' :: rest')

namespace SameTokens

theorem refl : ∀ tokens, SameTokens tokens tokens
  | [] => .nil
  | _ :: rest => .cons rfl (fun _ _ => rfl) (fun _ _ _ => rfl) (refl rest)

theorem length_eq {tokens tokens' : List Token} (h : SameTokens tokens tokens') :
    tokens.length = tokens'.length := by
  induction h with
  | nil => rfl
  | cons _ _ _ _ ih => simp [ih]

theorem dropWhile {tokens tokens' : List Token} (p : TokenKind → Bool)
    (h : SameTokens tokens tokens') :
    SameTokens (tokens.dropWhile fun token => p token.kind)
      (tokens'.dropWhile fun token => p token.kind) := by
  induction h with
  | nil => exact .nil
  | cons kind name key tail ih =>
    rw [List.dropWhile_cons, List.dropWhile_cons, ← kind]
    split
    · exact ih
    · exact .cons kind name key tail

end SameTokens

/-- Tapes of which the grammar sees the same. -/
structure Tape.Alike (t u : Tape) : Prop where
  tokens : SameTokens t.rest u.rest
  eof : t.eof.kind = .eof
  eof' : u.eof.kind = .eof

namespace Tape.Alike

/-- The first of some tokens has the same kind as the first of tokens like them. -/
theorem headD {t u : Tape} (h : t.Alike u) {tokens tokens' : List Token}
    (same : SameTokens tokens tokens') :
    (tokens.headD t.eof).kind = (tokens'.headD u.eof).kind := by
  cases same with
  | nil => exact h.eof.trans h.eof'.symm
  | cons kind _ _ _ => exact kind

theorem current {t u : Tape} (h : t.Alike u) : t.current.kind = u.current.kind :=
  h.headD h.tokens

theorem nameText {t u : Tape} (h : t.Alike u) {s : String} (isName : t.current.kind = .name s) :
    t.current.text = u.current.text := by
  obtain ⟨tokens, eof, readTo⟩ := t
  obtain ⟨tokens', eof', readTo'⟩ := u
  obtain ⟨same, ends, ends'⟩ := h
  cases same with
  | nil => cases ends.symm.trans isName
  | cons _ name _ _ => exact name s isName

/-- A keyword before a colon is spelled alike. -/
theorem keyText {t u : Tape} (h : t.Alike u) {k : Keyword} (isKeyword : t.current.kind = .keyword k)
    (colon : t.advance.current.kind = .symbol .colon) : t.current.text = u.current.text := by
  obtain ⟨tokens, eof, readTo⟩ := t
  obtain ⟨tokens', eof', readTo'⟩ := u
  obtain ⟨same, ends, ends'⟩ := h
  cases same with
  | nil => cases ends.symm.trans isKeyword
  | cons _ _ key tail =>
    refine key k isKeyword ?_
    cases tail with
    | nil => cases ends.symm.trans colon
    | cons => exact congrArg some colon

theorem pastEols {t u : Tape} (h : t.Alike u) : t.pastEols.kind = u.pastEols.kind :=
  h.headD (h.tokens.dropWhile TokenKind.isEol)

theorem advance {t u : Tape} (h : t.Alike u) : t.advance.Alike u.advance := by
  obtain ⟨tokens, eof, readTo⟩ := t
  obtain ⟨tokens', eof', readTo'⟩ := u
  obtain ⟨same, ends, ends'⟩ := h
  cases same with
  | nil => exact ⟨.nil, ends, ends'⟩
  | cons _ _ _ tail => exact ⟨tail, ends, ends'⟩

theorem skip {t u : Tape} (h : t.Alike u) (p : TokenKind → Bool) : (t.skip p).Alike (u.skip p) :=
  ⟨h.tokens.dropWhile p, h.eof, h.eof'⟩

end Tape.Alike

namespace Parsing

/-- Both results are rejections, or both are accepted with related items and leave tapes alike. -/
inductive Agreed (R : α → β → Prop) :
    Except CompileError (α × Tape) → Except CompileError (β × Tape) → Prop
  | rejected (e e' : CompileError) : Agreed R (.error e) (.error e')
  | accepted {a : α} {b : β} {t u : Tape} (related : R a b) (alike : t.Alike u) :
    Agreed R (.ok (a, t)) (.ok (b, u))

/-- Two parsers give results that agree on tapes alike. -/
def Agree (R : α → β → Prop) (p : Parsing α) (q : Parsing β) : Prop :=
  ∀ t u, t.Alike u → Agreed R (p.run t) (q.run u)

/-- Nothing is asked of two results. -/
def Whatever (_ : α) (_ : β) : Prop := True

variable {R : α → β → Prop} {S : γ → δ → Prop}

theorem Agree.pure {a : α} {b : β} (related : R a b) :
    Agree R (pure a : Parsing α) (pure b : Parsing β) :=
  fun _ _ alike => .accepted related alike

theorem Agree.bind {p : Parsing α} {q : Parsing β} {f : α → Parsing γ} {g : β → Parsing δ}
    (first : Agree R p q) (rest : ∀ a b, R a b → Agree S (f a) (g b)) :
    Agree S (p >>= f) (q >>= g) := by
  intro t u alike
  have agreed := first t u alike
  rw [StateT.run_bind, StateT.run_bind]
  generalize p.run t = result, q.run u = result' at agreed
  cases agreed with
  | rejected e e' => exact .rejected e e'
  | accepted related alike => exact rest _ _ related _ _ alike

/-- Parsers that give the same are followed by the same. -/
theorem Agree.bindEq {p q : Parsing α} {f : α → Parsing γ} {g : α → Parsing δ}
    (first : Agree Eq p q) (rest : ∀ a, Agree S (f a) (g a)) : Agree S (p >>= f) (q >>= g) := by
  refine first.bind fun a b same => ?_
  subst same
  exact rest a

theorem Agree.map {p : Parsing α} {q : Parsing β} {f : α → γ} {g : β → δ} (first : Agree R p q)
    (related : ∀ a b, R a b → S (f a) (g b)) : Agree S (f <$> p) (g <$> q) := by
  rw [map_eq_pure_bind, map_eq_pure_bind]
  exact first.bind fun a b h => .pure (related a b h)

/-! ## Steps -/

theorem agree_get : Agree Tape.Alike (get : Parsing Tape) get :=
  fun _ _ alike => .accepted alike alike

theorem agree_modify {f : Tape → Tape} (keeps : ∀ t u, t.Alike u → (f t).Alike (f u)) :
    Agree Whatever (modify f : Parsing PUnit) (modify f : Parsing PUnit) :=
  fun t u alike => .accepted trivial (keeps t u alike)

theorem agree_advance : Agree Whatever advance advance :=
  agree_modify fun _ _ alike => alike.advance

theorem agree_skipEols : Agree Whatever skipEols skipEols :=
  agree_modify fun _ _ alike => alike.skip _

theorem agree_skipSeparators : Agree Whatever skipSeparators skipSeparators :=
  agree_modify fun _ _ alike => alike.skip _

theorem agree_current : Agree (fun token token' => token.kind = token'.kind) current current :=
  agree_get.bind fun _ _ alike => .pure alike.current

/-- What goes on with the next token need only agree where that is the next token. -/
theorem agree_currentBind {f : Token → Parsing γ} {g : Token → Parsing δ}
    (rest : ∀ t u, t.Alike u → Agreed S ((f t.current).run t) ((g u.current).run u)) :
    Agree S (current >>= f) (current >>= g) :=
  rest

theorem agree_remaining : Agree Eq remaining remaining :=
  agree_get.bind fun _ _ alike => .pure alike.tokens.length_eq

theorem agree_at (s : Symbol) : Agree Eq (at? s) (at? s) :=
  agree_current.bind fun _ _ same => .pure (by rw [same])

theorem agree_atKeyword (k : Keyword) : Agree Eq (atKeyword? k) (atKeyword? k) :=
  agree_current.bind fun _ _ same => .pure (by rw [same])

theorem agree_mark : Agree Whatever mark mark :=
  agree_current.bind fun _ _ _ => .pure trivial

theorem agree_since (start start' : Cursor) : Agree Whatever (since start) (since start') :=
  agree_get.bind fun _ _ _ => .pure trivial

theorem agree_reject (fault fault' : GrammarFault) (loc loc' : Location) :
    Agree R (reject fault loc) (reject fault' loc') :=
  fun _ _ _ => .rejected _ _

theorem agree_unexpected (expected expected' : Expected) (suggestion suggestion' : Option String) :
    Agree R (unexpected expected suggestion) (unexpected expected' suggestion') := by
  refine agree_current.bind fun token token' _ => ?_
  split <;> split <;> exact agree_reject _ _ _ _

theorem agree_take (s : Symbol) : Agree Whatever (take s) (take s) := by
  refine (agree_at s).bindEq fun found => ?_
  split
  · exact agree_advance
  · exact agree_unexpected _ _ _ _

/-- What goes on after a symbol need only agree where that symbol is next. -/
theorem agreed_takeBind {f : Unit → Parsing γ} {g : Unit → Parsing δ} {s : Symbol} {t u : Tape}
    (alike : t.Alike u) (rest : t.current.kind = .symbol s → Agree S (f ()) (g ())) :
    Agreed S ((take s >>= f).run t) ((take s >>= g).run u) := by
  show Agreed S
    (((if t.current.kind.isSymbol s then advance else unexpected (.symbol s)) >>= f).run t)
    (((if u.current.kind.isSymbol s then advance else unexpected (.symbol s)) >>= g).run u)
  rw [← alike.current]
  split
  · rename_i next
    exact (agree_advance.bind fun _ _ _ => rest (TokenKind.eq_of_isSymbol next)) t u alike
  · exact (Agree.bind (R := fun _ _ => False) (agree_unexpected _ _ _ _)
      fun _ _ never => never.elim) t u alike

theorem agree_takeKeyword (d d' : Dictionary) (k : Keyword) :
    Agree Whatever (takeKeyword d k) (takeKeyword d' k) := by
  refine (agree_atKeyword k).bindEq fun found => ?_
  split
  · exact agree_advance
  · exact agree_unexpected _ _ _ _

theorem agree_takeName : Agree (fun x y => x.item = y.item) takeName takeName := by
  refine agree_current.bind fun token token' same => ?_
  rw [same]
  split
  · exact agree_advance.bind fun _ _ _ => .pure rfl
  · exact agree_unexpected _ _ _ _

end Parsing

end Polyglot
