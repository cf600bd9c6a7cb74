import Polyglot.Proofs.Parsing.Writing

/-!
# Parsers that succeed

A parser reads tokens of the given kinds if it succeeds on every tape that shows them, with a
result of a given property and with known kinds of tokens left. Locations and the texts of tokens
play no part.
-/

namespace Polyglot

variable {α β : Type}

/-- The tape shows tokens of the given kinds up to the end of the script. -/
structure Tape.Shows (t : Tape) (kinds : List TokenKind) : Prop where
  kinds : t.rest.map Token.kind = kinds
  eof : t.eof.kind = .eof

namespace Tape.Shows

variable {t : Tape} {kinds : List TokenKind}

theorem length (h : t.Shows kinds) : t.rest.length = kinds.length := by
  rw [← h.kinds, List.length_map]

theorem headD (h : t.Shows kinds) : t.current.kind = kinds.headD .eof := by
  obtain ⟨tokens, eof, readTo⟩ := t
  obtain ⟨rfl, ends⟩ := h
  cases tokens with
  | nil => exact ends
  | cons token rest => rfl

theorem advance {kind : TokenKind} (h : t.Shows (kind :: kinds)) : t.advance.Shows kinds := by
  obtain ⟨tokens, eof, readTo⟩ := t
  obtain ⟨same, ends⟩ := h
  cases tokens with
  | nil => cases same
  | cons token rest => exact ⟨(List.cons.inj same).2, ends⟩

theorem dropWhile (p : TokenKind → Bool) (h : t.Shows kinds) :
    (t.rest.dropWhile fun token => p token.kind).map Token.kind = kinds.dropWhile p := by
  rw [← h.kinds, List.dropWhile_map]
  rfl

theorem skip (p : TokenKind → Bool) (h : t.Shows kinds) : (t.skip p).Shows (kinds.dropWhile p) :=
  ⟨h.dropWhile p, h.eof⟩

theorem pastEols (h : t.Shows kinds) :
    t.pastEols.kind = (kinds.dropWhile TokenKind.isEol).headD .eof := by
  have rest := h.dropWhile TokenKind.isEol
  unfold Tape.pastEols
  rw [← rest]
  cases t.rest.dropWhile fun token => token.kind.isEol with
  | nil => exact h.eof
  | cons token rest => rfl

end Tape.Shows

namespace Parsing

/-- On tokens of the kinds `kinds` the parser succeeds with a result that has the property `Q`,
and leaves tokens of the kinds `rest`. -/
def Reads (p : Parsing α) (kinds rest : List TokenKind) (Q : α → Prop) : Prop :=
  ∀ t, t.Shows kinds → ∃ a u, p.run t = .ok (a, u) ∧ u.Shows rest ∧ Q a

variable {p : Parsing α} {kinds rest others : List TokenKind} {Q : α → Prop} {R : β → Prop}

theorem Reads.pure {a : α} (holds : Q a) : Reads (pure a) kinds kinds Q :=
  fun t shows => ⟨a, t, rfl, shows, holds⟩

theorem Reads.bind {f : α → Parsing β} (first : Reads p kinds rest Q)
    (after : ∀ a, Q a → Reads (f a) rest others R) : Reads (p >>= f) kinds others R := by
  intro t shows
  obtain ⟨a, u, run, shows, holds⟩ := first t shows
  obtain ⟨b, v, run', shows, holds⟩ := after a holds u shows
  refine ⟨b, v, ?_, shows, holds⟩
  rw [StateT.run_bind, run]
  exact run'

theorem Reads.imp {P : α → Prop} (first : Reads p kinds rest Q) (implies : ∀ a, Q a → P a) :
    Reads p kinds rest P := by
  intro t shows
  obtain ⟨a, u, run, shows, holds⟩ := first t shows
  exact ⟨a, u, run, shows, implies a holds⟩

theorem Reads.map {f : α → β} (first : Reads p kinds rest Q) (holds : ∀ a, Q a → R (f a)) :
    Reads (f <$> p) kinds rest R := by
  rw [map_eq_pure_bind]
  exact first.bind fun a h => .pure (holds a h)

/-! ## Steps -/

theorem reads_get : Reads (get : Parsing Tape) kinds kinds fun t => t.Shows kinds :=
  fun t shows => ⟨t, t, rfl, shows, shows⟩

theorem reads_advance {kind : TokenKind} : Reads advance (kind :: rest) rest fun _ => True :=
  fun t shows => ⟨(), t.advance, rfl, shows.advance, trivial⟩

theorem reads_skipEols : Reads skipEols kinds (kinds.dropWhile TokenKind.isEol) fun _ => True :=
  fun _ shows => ⟨(), _, rfl, shows.skip _, trivial⟩

theorem reads_skipSeparators :
    Reads skipSeparators kinds
      (kinds.dropWhile fun kind => kind.isEol || kind.isSymbol .semi) fun _ => True :=
  fun _ shows => ⟨(), _, rfl, shows.skip _, trivial⟩

theorem reads_current : Reads current kinds kinds fun token => token.kind = kinds.headD .eof :=
  reads_get.bind fun _ shows => .pure shows.headD

theorem reads_remaining : Reads remaining kinds kinds fun n => n = kinds.length :=
  reads_get.bind fun _ shows => .pure shows.length

theorem reads_at (s : Symbol) :
    Reads (at? s) kinds kinds fun found => found = (kinds.headD .eof).isSymbol s :=
  reads_current.bind fun _ same => .pure (by rw [same])

theorem reads_atKeyword (k : Keyword) :
    Reads (atKeyword? k) kinds kinds fun found => found = (kinds.headD .eof).isKeyword k :=
  reads_current.bind fun _ same => .pure (by rw [same])

theorem reads_mark : Reads mark kinds kinds fun _ => True :=
  reads_current.bind fun _ _ => .pure trivial

theorem reads_since (start : Cursor) : Reads (since start) kinds kinds fun _ => True :=
  reads_get.bind fun _ _ => .pure trivial

theorem reads_take (s : Symbol) : Reads (take s) (.symbol s :: rest) rest fun _ => True := by
  refine (reads_at s).bind ?_
  rintro _ rfl
  rw [List.headD_cons, TokenKind.isSymbol, beq_self_eq_true, if_pos rfl]
  exact reads_advance

/-- Before a symbol there are no line ends to skip. -/
theorem reads_skipEols_symbol (s : Symbol) :
    Reads skipEols (.symbol s :: rest) (.symbol s :: rest) fun _ => True :=
  reads_skipEols

theorem reads_skipEols_eol {kind : TokenKind} (other : kind.isEol = false) :
    Reads skipEols (.eol :: kind :: rest) (kind :: rest) fun _ => True := by
  have skipped : (TokenKind.eol :: kind :: rest).dropWhile TokenKind.isEol = kind :: rest := by
    rw [List.dropWhile_cons_of_pos rfl, List.dropWhile_cons_of_neg (by simp [other])]
  have reads : Reads skipEols (.eol :: kind :: rest) _ _ := reads_skipEols
  rwa [skipped] at reads

theorem reads_takeKeyword (d : Dictionary) (k : Keyword) :
    Reads (takeKeyword d k) (.keyword k :: rest) rest fun _ => True := by
  refine (reads_atKeyword k).bind ?_
  rintro _ rfl
  rw [List.headD_cons, TokenKind.isKeyword, beq_self_eq_true, if_pos rfl]
  exact reads_advance

theorem reads_takeName (s : String) :
    Reads takeName (.name s :: rest) rest fun x => x.item = s := by
  refine reads_current.bind fun token kind => ?_
  rw [kind]
  exact reads_advance.bind fun _ _ => .pure rfl

end Parsing

end Polyglot
