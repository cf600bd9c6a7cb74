import Polyglot.Program.Grammar
import Polyglot.Proofs.Program.Parts

/-!
# Where the rules of the grammar place nodes

A tape is placed if its tokens follow each other in the text, after all that was read. A rule
starts its node at the next token and ends it at the last token taken, so the parts that it reads
in between lie inside, in the order in which they were read; and what it rejects is rejected at a
token or at a node that was read. There is one lemma for each rule, over a grammar whose own
expressions and statements are already known to be placed.
-/

namespace Polyglot

variable {α β : Type} {source : String}

/-! ## Tapes -/

/-- Where the next token starts. -/
def Tape.here (t : Tape) : Nat :=
  t.current.loc.span.start

/-- The tokens ahead and the end stand one after the other, behind what was read. -/
structure Tape.Placed (source : String) (t : Tape) : Prop where
  sound : ∀ token ∈ t.rest ++ [t.eof], token.loc.Sound source
  ordered : (t.rest ++ [t.eof]).Pairwise fun a b => a.loc.span.Before b.loc.span
  behind : ∀ token ∈ t.rest ++ [t.eof], t.readTo ≤ token.loc.span.start
  boundary : IsBoundary source t.readTo
  eof : t.eof.kind = .eof

theorem Tape.mem_current (t : Tape) : t.current ∈ t.rest ++ [t.eof] := by
  unfold Tape.current
  cases t.rest <;> simp

namespace Tape.Placed

variable {t : Tape} (placed : t.Placed source)

include placed

theorem current : t.current.loc.Sound source :=
  placed.sound _ t.mem_current

theorem readTo_le : t.readTo ≤ t.here :=
  placed.behind _ t.mem_current

/-- Tokens may be taken off the front of the tape. -/
theorem drop {taken : List Token} {u : Tape} (tokens : t.rest = taken ++ u.rest)
    (sameEof : u.eof = t.eof)
    (readTo : u.readTo = (taken.getLast?.map fun token => token.loc.span.stop).getD t.readTo) :
    u.Placed source ∧ t.here ≤ u.here ∧ t.readTo ≤ u.readTo := by
  have whole : t.rest ++ [t.eof] = taken ++ (u.rest ++ [u.eof]) := by
    rw [tokens, sameEof, List.append_assoc]
  have sound := placed.sound
  have ordered := placed.ordered
  have behind := placed.behind
  rw [whole] at sound ordered behind
  obtain ⟨-, ordered', across⟩ := List.pairwise_append.1 ordered
  cases last : taken.getLast? with
  | none =>
    -- Nothing was taken, so nothing has moved.
    have none : taken = [] := List.getLast?_eq_none_iff.1 last
    rw [last] at readTo
    subst none
    have same : u.current = t.current := by
      unfold Tape.current
      rw [tokens, sameEof]
      rfl
    have readTo' : u.readTo = t.readTo := readTo
    refine ⟨⟨?_, ordered', ?_, ?_, ?_⟩, ?_, ?_⟩
    · simpa using sound
    · rw [readTo']
      simpa using behind
    · rw [readTo']
      exact placed.boundary
    · rw [sameEof]
      exact placed.eof
    · unfold Tape.here
      rw [same]
    · omega
  | some token =>
    rw [last] at readTo
    have member : token ∈ taken := List.mem_of_getLast? last
    have soundToken := sound token (List.mem_append_left _ member)
    have readTo' : u.readTo = token.loc.span.stop := readTo
    have behindToken := behind token (List.mem_append_left _ member)
    have grown : t.readTo ≤ u.readTo := by
      have ordered := soundToken.ordered
      omega
    have placed' : u.Placed source := by
      refine ⟨?_, ordered', ?_, ?_, ?_⟩
      · intro other later
        exact sound other (List.mem_append_right _ later)
      · intro other later
        rw [readTo']
        exact across token member other later
      · rw [readTo']
        exact soundToken.stopBoundary
      · rw [sameEof]
        exact placed.eof
    refine ⟨placed', ?_, grown⟩
    -- The tape went on from its first token to a later one.
    obtain ⟨first, rest, begins⟩ := List.exists_cons_of_ne_nil (List.ne_nil_of_mem member)
    have here : t.here = first.loc.span.start := by
      unfold Tape.here Tape.current
      rw [tokens, begins]
      rfl
    have firstMember : first ∈ taken := by
      rw [begins]
      exact List.mem_cons_self
    have step := across first firstMember u.current u.mem_current
    have ordered := (sound first (List.mem_append_left _ firstMember)).ordered
    have here' : u.here = u.current.loc.span.start := rfl
    unfold Span.Before at step
    omega

theorem skip (p : TokenKind → Bool) :
    (t.skip p).Placed source ∧ t.here ≤ (t.skip p).here ∧ t.readTo ≤ (t.skip p).readTo :=
  placed.drop List.takeWhile_append_dropWhile.symm rfl rfl

theorem advance :
    t.advance.Placed source ∧ t.here ≤ t.advance.here ∧ t.readTo ≤ t.advance.readTo := by
  cases tokens : t.rest with
  | nil =>
    have same : t.advance = t := by
      unfold Tape.advance
      rw [tokens]
    rw [same]
    exact ⟨placed, Nat.le_refl _, Nat.le_refl _⟩
  | cons token rest =>
    have taken : t.advance = { t with rest := rest, readTo := token.loc.span.stop } := by
      unfold Tape.advance
      rw [tokens]
    have split : t.rest = [token] ++ rest := tokens
    rw [taken]
    exact placed.drop split rfl rfl

/-- Unless the tape is at its end, the next token is the last one taken then. -/
theorem readTo_advance (ahead : t.current.kind ≠ .eof) :
    t.advance.readTo = t.current.loc.span.stop := by
  unfold Tape.current at ahead ⊢
  unfold Tape.advance
  cases tokens : t.rest with
  | nil =>
    rw [tokens] at ahead
    exact absurd placed.eof ahead
  | cons token rest => rfl

end Tape.Placed

/-! ## Parsers -/

namespace Parsing

/-- The parser has accepted, on a placed tape with the given property, or has rejected the script
at a sound location. -/
inductive Led (source : String) (Q : α → Tape → Prop) : Except CompileError (α × Tape) → Prop
  | accepted {a : α} {u : Tape} (placed : u.Placed source) (holds : Q a u) : Led source Q (.ok (a, u))
  | rejected {e : CompileError} (sound : e.loc.Sound source) : Led source Q (.error e)

variable {Q : α → Tape → Prop} {R : β → Tape → Prop} {t : Tape}

theorem Led.pure (placed : t.Placed source) {a : α} (holds : Q a t) :
    Led source Q ((pure a : Parsing α).run t) :=
  .accepted placed holds

theorem Led.bind {p : Parsing α} {f : α → Parsing β} (first : Led source Q (p.run t))
    (rest : ∀ a u, u.Placed source → Q a u → Led source R ((f a).run u)) :
    Led source R ((p >>= f).run t) := by
  rw [StateT.run_bind]
  generalize p.run t = result at first
  cases first with
  | accepted placed holds => exact rest _ _ placed holds
  | rejected sound => exact .rejected sound

theorem Led.imp {S : α → Tape → Prop} {result : Except CompileError (α × Tape)}
    (led : Led source Q result) (weaker : ∀ a u, u.Placed source → Q a u → S a u) :
    Led source S result := by
  cases led with
  | accepted placed holds => exact .accepted placed (weaker _ _ placed holds)
  | rejected sound => exact .rejected sound

theorem Led.map {p : Parsing α} {f : α → β} (first : Led source Q (p.run t))
    (holds : ∀ a u, u.Placed source → Q a u → R (f a) u) : Led source R ((f <$> p).run t) := by
  rw [map_eq_pure_bind]
  refine first.bind ?_
  intro a u placed given
  exact .pure placed (holds a u placed given)

/-! ### Steps -/

section

variable (placed : t.Placed source)

include placed

theorem led_get : Led source (fun u v => t = u ∧ t = v) ((get : Parsing Tape).run t) :=
  .accepted placed ⟨rfl, rfl⟩

theorem led_current :
    Led source (fun token u => t.current = token ∧ t = u) (current.run t) :=
  .accepted placed ⟨rfl, rfl⟩

theorem led_remaining : Led source (fun _ u => t = u) (remaining.run t) :=
  .accepted placed rfl

theorem led_at (s : Symbol) :
    Led source (fun found u => t = u ∧ (found = true → t.current.kind ≠ .eof)) ((at? s).run t) := by
  refine .accepted placed ⟨rfl, ?_⟩
  intro found ended
  rw [ended] at found
  cases found

theorem led_atKeyword (k : Keyword) :
    Led source (fun found u => t = u ∧ (found = true → t.current.kind ≠ .eof))
      ((atKeyword? k).run t) := by
  refine .accepted placed ⟨rfl, ?_⟩
  intro found ended
  rw [ended] at found
  cases found

/-- Taking a token that is there moves the end of what was read past it. -/
theorem led_advance (ahead : t.current.kind ≠ .eof) :
    Led source (fun _ u => u.readTo = t.current.loc.span.stop ∧ t.here ≤ u.readTo)
      (advance.run t) := by
  have readTo := placed.readTo_advance ahead
  have ordered := placed.current.ordered
  have here : t.here = t.current.loc.span.start := rfl
  refine .accepted placed.advance.1 ⟨readTo, ?_⟩
  omega

theorem led_advanceAnyway : Led source (fun _ u => t.here ≤ u.here) (advance.run t) :=
  .accepted placed.advance.1 placed.advance.2.1

theorem led_skipEols :
    Led source (fun _ u => t.here ≤ u.here ∧ t.readTo ≤ u.readTo) (skipEols.run t) :=
  .accepted (placed.skip _).1 (placed.skip _).2

theorem led_skipSeparators :
    Led source (fun _ u => t.here ≤ u.here ∧ t.readTo ≤ u.readTo) (skipSeparators.run t) :=
  .accepted (placed.skip _).1 (placed.skip _).2

omit placed in
theorem led_reject {loc : Location} (sound : loc.Sound source) (fault : GrammarFault) :
    Led source Q ((reject fault loc : Parsing α).run t) :=
  .rejected sound

theorem led_unexpected (expected : Expected) (suggestion : Option String) :
    Led source Q ((unexpected expected suggestion : Parsing α).run t) := by
  refine (led_current placed).bind ?_
  rintro token u placed' ⟨rfl, rfl⟩
  split
  · exact led_reject placed.current _
  · exact led_reject placed.current _

theorem led_take (s : Symbol) : Led source (fun _ u => t.here ≤ u.readTo) ((take s).run t) := by
  refine (led_at placed s).bind ?_
  rintro found u placed' ⟨rfl, ahead⟩
  split
  · rename_i isThere
    refine (led_advance placed (ahead isThere)).imp ?_
    intro _ v _ taken
    exact taken.2
  · exact led_unexpected placed _ _

theorem led_takeKeyword (d : Dictionary) (k : Keyword) :
    Led source (fun _ u => t.here ≤ u.readTo) ((takeKeyword d k).run t) := by
  refine (led_atKeyword placed k).bind ?_
  rintro found u placed' ⟨rfl, ahead⟩
  split
  · rename_i isThere
    refine (led_advance placed (ahead isThere)).imp ?_
    intro _ v _ taken
    exact taken.2
  · exact led_unexpected placed _ _

theorem led_takeName :
    Led source (fun x u => x.loc.Sound source ∧ t.here ≤ x.loc.span.start ∧
      x.loc.span.stop ≤ u.readTo) (takeName.run t) := by
  refine (led_current placed).bind ?_
  rintro token u placed' ⟨rfl, rfl⟩
  split
  · rename_i isName
    refine (led_advance placed (by rw [isName]; exact TokenKind.noConfusion)).bind ?_
    rintro _ v placed'' ⟨readTo, -⟩
    exact .pure placed'' ⟨placed.current, Nat.le_refl _, readTo.ge⟩
  · exact led_unexpected placed _ _

end

/-- A place in a text. -/
structure Marks (source : String) (start : Cursor) : Prop where
  boundary : IsBoundary source start.offset
  pos : start.pos = positionAt source start.offset

theorem led_mark (placed : t.Placed source) :
    Led source (fun start u => t = u ∧ start.offset = t.here ∧ Marks source start) (mark.run t) :=
  .accepted placed ⟨rfl, rfl, placed.current.startBoundary, placed.current.pos⟩

/-- What was read since a mark has a sound location. -/
theorem led_since (placed : t.Placed source) {start : Cursor} (marks : Marks source start)
    (after : start.offset ≤ t.readTo) :
    Led source (fun loc u => t = u ∧ loc.Sound source ∧ loc.span.start = start.offset ∧
      loc.span.stop = t.readTo) ((since start).run t) := by
  have stop : max t.readTo start.offset = t.readTo := Nat.max_eq_left after
  refine .accepted placed ⟨rfl, ⟨?_, ?_, marks.boundary, ?_, marks.pos⟩, rfl, stop⟩
  · simp
  · simp only [stop]
    exact placed.boundary.le_utf8ByteSize
  · simp only [stop]
    exact placed.boundary

end Parsing

end Polyglot
