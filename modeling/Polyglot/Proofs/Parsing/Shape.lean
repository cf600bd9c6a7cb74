import Polyglot.Proofs.Parsing.Spelling

/-!
# What the rules of the grammar accept is well-formed

A property of trees that holds of everything which the rules of the grammar put together holds of
every tree that they read. There is one lemma for each rule, over a grammar whose own expressions
and statements are already known to do so; unrolling the rules then gives it for whole programs.
That the tree is well-formed where it stands is such a property, if the tokens are those of an
English script.
-/

namespace Polyglot

variable {α β : Type}

/-- A kind that a token can have if `Named` holds of every name. -/
def TokenKind.Readable (Named : String → Prop) : TokenKind → Prop
  | name s => Named s
  | int n => 0 ≤ n
  | float x => IsDecimal x
  | _ => True

/-- Every token ahead has such a kind. -/
structure Tape.Readable (Named : String → Prop) (t : Tape) : Prop where
  rest : ∀ token ∈ t.rest, token.kind.Readable Named
  eof : t.eof.kind = .eof

variable {Named : String → Prop}

namespace Tape.Readable

variable {t : Tape} (h : t.Readable Named)

include h

theorem current : t.current.kind.Readable Named := by
  obtain ⟨tokens, eof, readTo⟩ := t
  cases tokens with
  | nil =>
    show eof.kind.Readable Named
    rw [h.eof]
    trivial
  | cons token rest => exact h.rest token (by simp)

theorem advance : t.advance.Readable Named := by
  obtain ⟨tokens, eof, readTo⟩ := t
  cases tokens with
  | nil => exact h
  | cons token rest => exact ⟨fun other later => h.rest other (List.mem_cons_of_mem _ later), h.eof⟩

theorem skip (p : TokenKind → Bool) : (t.skip p).Readable Named :=
  ⟨fun token member => h.rest token ((List.dropWhile_sublist _).subset member), h.eof⟩

end Tape.Readable

namespace Parsing

/-- Whatever the parser accepts on readable tokens has the property `Q`. -/
def Yields (Named : String → Prop) (Q : α → Prop) (p : Parsing α) : Prop :=
  ∀ t a u, t.Readable Named → p.run t = .ok (a, u) → Q a ∧ u.Readable Named

/-- Nothing is asked of a result. -/
def Anything (_ : α) : Prop := True

variable {Q : α → Prop} {R : β → Prop}

theorem Yields.pure {a : α} (holds : Q a) : Yields Named Q (pure a : Parsing α) := by
  intro t b u readable run
  cases run
  exact ⟨holds, readable⟩

theorem Yields.bind {p : Parsing α} {f : α → Parsing β} (first : Yields Named Q p)
    (rest : ∀ a, Q a → Yields Named R (f a)) : Yields Named R (p >>= f) := by
  intro t b u readable run
  rw [StateT.run_bind] at run
  cases result : p.run t with
  | error e =>
    rw [result] at run
    cases run
  | ok accepted =>
    rw [result] at run
    obtain ⟨holds, readable⟩ := first t _ _ readable result
    exact rest _ holds _ _ _ readable run

theorem Yields.map {p : Parsing α} {f : α → β} (first : Yields Named Q p)
    (holds : ∀ a, Q a → R (f a)) : Yields Named R (f <$> p) := by
  rw [map_eq_pure_bind]
  exact first.bind fun a h => .pure (holds a h)

/-! ## Steps -/

theorem yields_get : Yields Named (Tape.Readable Named) (get : Parsing Tape) := by
  intro t a u readable run
  cases run
  exact ⟨readable, readable⟩

theorem yields_modify {f : Tape → Tape} (keeps : ∀ t : Tape, t.Readable Named → (f t).Readable Named) :
    Yields Named Anything (modify f : Parsing PUnit) := by
  intro t a u readable run
  cases run
  exact ⟨trivial, keeps t readable⟩

theorem yields_advance : Yields Named Anything advance :=
  yields_modify fun _ readable => readable.advance

theorem yields_skipEols : Yields Named Anything skipEols :=
  yields_modify fun _ readable => readable.skip _

theorem yields_skipSeparators : Yields Named Anything skipSeparators :=
  yields_modify fun _ readable => readable.skip _

theorem yields_current : Yields Named (fun token => token.kind.Readable Named) current :=
  yields_get.bind fun _ readable => .pure readable.current

theorem yields_remaining : Yields Named Anything remaining :=
  yields_get.bind fun _ _ => .pure trivial

theorem yields_at (s : Symbol) : Yields Named Anything (at? s) :=
  yields_current.bind fun _ _ => .pure trivial

theorem yields_atKeyword (k : Keyword) : Yields Named Anything (atKeyword? k) :=
  yields_current.bind fun _ _ => .pure trivial

theorem yields_mark : Yields Named Anything mark :=
  yields_current.bind fun _ _ => .pure trivial

theorem yields_since (start : Cursor) : Yields Named Anything (since start) :=
  yields_get.bind fun _ _ => .pure trivial

theorem yields_reject (fault : GrammarFault) (loc : Location) :
    Yields Named Q (reject fault loc : Parsing α) := by
  intro t a u readable run
  cases run

theorem yields_unexpected (expected : Expected) (suggestion : Option String) :
    Yields Named Q (unexpected expected suggestion : Parsing α) := by
  refine yields_current.bind fun token _ => ?_
  split <;> exact yields_reject _ _

theorem yields_take (s : Symbol) : Yields Named Anything (take s) := by
  refine (yields_at s).bind fun found _ => ?_
  split
  · exact yields_advance
  · exact yields_unexpected _ _

theorem yields_takeKeyword (d : Dictionary) (k : Keyword) : Yields Named Anything (takeKeyword d k) := by
  refine (yields_atKeyword k).bind fun found _ => ?_
  split
  · exact yields_advance
  · exact yields_unexpected _ _

theorem yields_takeName : Yields Named (fun x => Named x.item) takeName := by
  refine yields_current.bind fun token readable => ?_
  split
  · rename_i isName
    rw [isName] at readable
    exact yields_advance.bind fun _ _ => .pure readable
  · exact yields_unexpected _ _

end Parsing

open Parsing

/-! ## Properties of trees -/

/-- `Is` holds of every tree that the rules of the grammar put together, where it stands, if it
holds of the parts and `Named` holds of the names. -/
structure Shapes (Named : String → Prop) (Is : Role → Bool → Node → Prop) : Prop where
  constant : ∀ {inLoop l value}, value.IsLiteral → Is .expression inLoop (.constant l value)
  name : ∀ {inLoop l s}, Named s → Is .expression inLoop (.name l s)
  block : ∀ {role inLoop l body}, role ≠ .expression → (∀ n ∈ body, Is .statement inLoop n) →
    Is role inLoop (.block l body)
  statement : ∀ {inLoop l value}, Is .expression inLoop value →
    Is .statement inLoop (.statement l value)
  assign : ∀ {inLoop l target value}, Grammar.isTarget target = true →
    Is .expression inLoop target → Is .expression inLoop value →
    Is .expression inLoop (.assign l target value)
  call : ∀ {inLoop l callee args}, Named callee.item → (∀ n ∈ args, Is .expression inLoop n) →
    Is .expression inLoop (.call l callee args)
  binary : ∀ {inLoop l left op right}, Is .expression inLoop left → Is .expression inLoop right →
    Is .expression inLoop (.binary l left op right)
  unary : ∀ {inLoop l op operand}, Is .expression inLoop operand →
    Is .expression inLoop (.unary l op operand)
  logical : ∀ {inLoop l left op right}, Is .expression inLoop left → Is .expression inLoop right →
    Is .expression inLoop (.logical l left op right)
  conditional : ∀ {role inLoop l test yes no}, Is .expression inLoop test → Is .branch inLoop yes →
    (∀ n ∈ no, Is .branch inLoop n) → Is role inLoop (.conditional l test yes no)
  index : ∀ {inLoop l owner key}, Is .expression inLoop owner → Is .expression inLoop key →
    Is .expression inLoop (.index l owner key)
  object : ∀ {inLoop l properties},
    (∀ p ∈ properties, Is .expression inLoop p.1 ∧ Is .expression inLoop p.2) →
    Is .expression inLoop (.object l properties)
  array : ∀ {inLoop l items}, (∀ n ∈ items, Is .expression inLoop n) →
    Is .expression inLoop (.array l items)
  whileLoop : ∀ {role inLoop l test body retain}, (retain = false ↔ role = .statement) →
    Is .expression inLoop test → Is .branch true body →
    Is role inLoop (.whileLoop l test body retain)
  countLoop : ∀ {role inLoop l counter start bound direction step body retain},
    (retain = false ↔ role = .statement) → Named counter.item → Is .expression inLoop start →
    Is .expression inLoop bound → Is .expression inLoop step → Is .branch true body →
    Is role inLoop (.countLoop l counter start bound direction step body retain)
  eachLoop : ∀ {role inLoop l target collection body}, (∀ x ∈ target.names, Named x.item) →
    Is .expression inLoop collection → Is .branch true body →
    Is role inLoop (.eachLoop l target collection body true)
  breakLoop : ∀ {l}, Is .expression true (.breakLoop l)
  continueLoop : ∀ {l}, Is .expression true (.continueLoop l)
  returnValue : ∀ {inLoop l value}, (∀ n ∈ value, Is .expression inLoop n) →
    Is .expression inLoop (.returnValue l value)
  relocate : ∀ {role inLoop n} l, Is role inLoop n → Is role inLoop (n.relocate l)
  branch : ∀ {inLoop n}, Is .expression inLoop n → Is .branch inLoop n
  named : ∀ {inLoop l s}, Is .expression inLoop (.name l s) → Named s
  assigned : ∀ {inLoop l target value}, Is .expression inLoop (.assign l target value) →
    Is .expression inLoop target ∧ Is .expression inLoop value

/-- The property holds of all expressions and statements where they stand. -/
structure Grammar.Shapely (Named : String → Prop) (Is : Role → Bool → Node → Prop) (g : Grammar) :
    Prop where
  expression : ∀ c, Yields Named (Is .expression c.inLoop) (g.expression c)
  statement : ∀ c, Yields Named (Is .statement c.inLoop) (g.statement c)

variable {Is : Role → Bool → Node → Prop}

namespace Grammar

/-! ## Lists -/

theorem yields_itemsUpTo {α : Type} {Q : α → Prop} {item : Parsing α} (inner : Yields Named Q item)
    (close : Symbol) (n : Nat) : Yields Named (fun as => ∀ a ∈ as, Q a) (itemsUpTo close item n) := by
  induction n with
  | zero => exact yields_unexpected _ _
  | succ n ih =>
    refine yields_skipEols.bind fun _ _ => (yields_at close).bind fun closes _ => ?_
    split
    · exact yields_advance.bind fun _ _ => .pure (by simp)
    refine inner.bind fun first holds => yields_skipEols.bind fun _ _ =>
      (yields_at .comma).bind fun goesOn _ => ?_
    have others : Yields Named (fun as => ∀ a ∈ as, Q a)
        (itemsUpTo close item n >>= fun rest => pure (first :: rest)) :=
      ih.bind fun rest all => .pure (List.forall_mem_cons.2 ⟨holds, all⟩)
    split
    · exact yields_advance.bind fun _ _ => others
    refine (yields_at close).bind fun ends _ => ?_
    split
    · exact (yields_unexpected (Q := Anything) _ _).bind fun _ _ => others
    · exact others

theorem yields_items {α : Type} {Q : α → Prop} {item : Parsing α} (inner : Yields Named Q item)
    (close : Symbol) : Yields Named (fun as => ∀ a ∈ as, Q a) (items close item) :=
  yields_remaining.bind fun n _ => yields_itemsUpTo inner close (n + 1)

theorem yields_statementsUpTo {Q : Node → Prop} {statement : Parsing Node}
    (inner : Yields Named Q statement) (n : Nat) :
    Yields Named (fun ns => ∀ n ∈ ns, Q n) (statementsUpTo statement n) := by
  induction n with
  | zero => exact yields_unexpected _ _
  | succ n ih =>
    refine yields_skipSeparators.bind fun _ _ => yields_current.bind fun token _ => ?_
    split
    · exact yields_advance.bind fun _ _ => .pure (by simp)
    · exact yields_unexpected _ _
    · exact inner.bind fun first holds => ih.bind fun rest all =>
        .pure (List.forall_mem_cons.2 ⟨holds, all⟩)

theorem yields_programUpTo {Q : Node → Prop} {statement : Parsing Node}
    (inner : Yields Named Q statement) (n : Nat) :
    Yields Named (fun ns => ∀ n ∈ ns, Q n) (programUpTo statement n) := by
  induction n with
  | zero => exact yields_unexpected _ _
  | succ n ih =>
    refine yields_skipSeparators.bind fun _ _ => yields_current.bind fun token _ => ?_
    split
    · exact .pure (by simp)
    · exact inner.bind fun first holds => ih.bind fun rest all =>
        .pure (List.forall_mem_cons.2 ⟨holds, all⟩)

variable (shapes : Shapes Named Is) {g : Grammar} (h : g.Shapely Named Is) (c : Context)

include shapes h

theorem yields_block {role : Role} (place : role ≠ .expression) :
    Yields Named (Is role c.inLoop) (g.block c) := by
  refine yields_mark.bind fun _ _ => (yields_take _).bind fun _ _ =>
    yields_remaining.bind fun n _ => (yields_statementsUpTo (h.statement _) (n + 1)).bind
      fun body all => (yields_since _).bind fun _ _ => .pure (shapes.block place all)

/-! ## Conditionals and loops -/

theorem yields_branch : Yields Named (Is .branch c.inLoop) (g.branch c) := by
  refine yields_skipEols.bind fun _ _ => (yields_at _).bind fun opens _ => ?_
  split
  · exact yields_block shapes h c (by decide)
  · intro t n u readable run
    obtain ⟨formed, readable⟩ := h.expression c t n u readable run
    exact ⟨shapes.branch formed, readable⟩

theorem yields_loopBody : Yields Named (Is .branch true) (g.loopBody c) :=
  yields_branch shapes h { c with inLoop := true }

theorem yields_parenthesized :
    Yields Named (Is .expression c.inLoop) (g.parenthesized c) :=
  yields_mark.bind fun _ _ => (yields_take _).bind fun _ _ => (h.expression c).bind
    fun _ inner => (yields_take _).bind fun _ _ => (yields_since _).bind fun _ _ =>
      .pure (shapes.relocate _ inner)

theorem yields_condition : Yields Named (Is .expression c.inLoop) (g.condition c) := by
  refine (yields_at _).bind fun opens _ => ?_
  split
  · exact yields_parenthesized shapes h c
  · exact h.expression c

/-- A conditional may stand everywhere. -/
theorem yields_conditional (role : Role) :
    Yields Named (Is role c.inLoop) (g.conditional c) := by
  refine yields_mark.bind fun start _ => (yields_takeKeyword _ _).bind fun _ _ =>
    (yields_condition shapes h c).bind fun test testFormed => (yields_branch shapes h c).bind
      fun yes yesFormed => yields_get.bind fun t _ => ?_
  split
  · refine yields_skipEols.bind fun _ _ => yields_advance.bind fun _ _ =>
      ((yields_branch shapes h c).map (R := fun no => ∀ n ∈ no, Is .branch c.inLoop n)
        fun no formed => by simpa using formed).bind fun no noFormed => ?_
    exact (yields_since _).bind fun _ _ => .pure (shapes.conditional testFormed yesFormed noFormed)
  · exact (Yields.pure (Q := fun no : Option Node => ∀ n ∈ no, Is .branch c.inLoop n) (by simp)).bind
      fun _ noFormed => (yields_since _).bind fun _ _ =>
        .pure (shapes.conditional testFormed yesFormed noFormed)

theorem yields_whileLoop {retain : Bool} {role : Role} (place : retain = false ↔ role = .statement) :
    Yields Named (Is role c.inLoop) (g.whileLoop c retain) :=
  yields_mark.bind fun _ _ => (yields_takeKeyword _ _).bind fun _ _ =>
    (yields_condition shapes h c).bind fun _ testFormed => (yields_loopBody shapes h c).bind
      fun _ bodyFormed => (yields_since _).bind fun _ _ =>
        .pure (shapes.whileLoop place testFormed bodyFormed)

/-- A loop over elements may stand everywhere. -/
theorem yields_eachLoop (role : Role) (start : Cursor) {target : LoopTarget}
    (named : ∀ x ∈ target.names, Named x.item) :
    Yields Named (Is role c.inLoop) (g.eachLoop c start target) :=
  (yields_takeKeyword _ _).bind fun _ _ => (h.expression c).bind fun _ itemsFormed =>
    (yields_loopBody shapes h c).bind fun _ bodyFormed => (yields_since _).bind fun _ _ =>
      .pure (shapes.eachLoop named itemsFormed bodyFormed)

omit shapes h in
theorem yields_direction : Yields Named Anything direction := by
  refine (yields_atKeyword _).bind fun up _ => ?_
  split
  · exact yields_advance.bind fun _ _ => .pure trivial
  refine (yields_atKeyword _).bind fun down _ => ?_
  split
  · exact yields_advance.bind fun _ _ => .pure trivial
  · exact .pure trivial

theorem yields_step : Yields Named (Is .expression c.inLoop) (g.step c) := by
  refine (yields_atKeyword _).bind fun given _ => ?_
  split
  · exact yields_advance.bind fun _ _ => h.expression c
  · exact yields_mark.bind fun _ _ => .pure (shapes.constant (by simp [Constant.IsLiteral]))

theorem yields_countLoop {retain : Bool} {role : Role} (place : retain = false ↔ role = .statement)
    (start : Cursor) {counter : Located String} (named : Named counter.item) {first : Node}
    (firstFormed : Is .expression c.inLoop first) :
    Yields Named (Is role c.inLoop) (g.countLoop c start counter first retain) :=
  (yields_takeKeyword _ _).bind fun _ _ => (h.expression c).bind fun _ boundFormed =>
    yields_direction.bind fun _ _ => (yields_step shapes h c).bind fun _ stepFormed =>
      (yields_loopBody shapes h c).bind fun _ bodyFormed => (yields_since _).bind fun _ _ =>
        .pure (shapes.countLoop place named firstFormed boundFormed stepFormed bodyFormed)

theorem yields_forLoop {retain : Bool} {role : Role} (place : retain = false ↔ role = .statement) :
    Yields Named (Is role c.inLoop) (g.forLoop c retain) := by
  refine yields_mark.bind fun start _ => (yields_takeKeyword _ _).bind fun _ _ =>
    (yields_at _).bind fun opens _ => ?_
  split
  · exact yields_advance.bind fun _ _ => yields_takeName.bind fun _ firstNamed =>
      (yields_take _).bind fun _ _ => yields_takeName.bind fun _ secondNamed =>
        (yields_take _).bind fun _ _ => yields_eachLoop shapes h c role start
          (by simpa [LoopTarget.names] using ⟨firstNamed, secondNamed⟩)
  refine (h.expression c).bind fun header formed => ?_
  split
  · obtain ⟨counter, first⟩ := shapes.assigned formed
    exact yields_countLoop shapes h c place start (shapes.named counter) first
  · exact yields_reject _ _
  · refine (yields_atKeyword _).bind fun found _ => ?_
    split
    · exact yields_eachLoop shapes h c role start
        (by simpa [LoopTarget.names] using shapes.named formed)
    · exact yields_reject _ _
  · exact yields_reject _ _

/-! ## Operands -/

theorem yields_property :
    Yields Named (fun p : Node × Node => Is .expression c.inLoop p.1 ∧ Is .expression c.inLoop p.2)
      (g.property c) := by
  have rest : ∀ key : Node, Is .expression c.inLoop key →
      Yields Named
        (fun p : Node × Node => Is .expression c.inLoop p.1 ∧ Is .expression c.inLoop p.2)
        (do take .colon; skipEols; return (key, ← g.expression c)) :=
    fun _ keyFormed => (yields_take _).bind fun _ _ => yields_skipEols.bind fun _ _ =>
      (h.expression c).bind fun _ valueFormed => .pure ⟨keyFormed, valueFormed⟩
  have word : ∀ l s, Is .expression c.inLoop (.constant l (.text s)) :=
    fun _ _ => shapes.constant trivial
  refine yields_current.bind fun token _ => ?_
  split
  · exact yields_advance.bind fun _ _ => (Yields.pure (word _ _)).bind rest
  · exact yields_advance.bind fun _ _ => (Yields.pure (word _ _)).bind rest
  · exact yields_advance.bind fun _ _ => (Yields.pure (word _ _)).bind rest
  · exact yields_advance.bind fun _ _ => (h.expression c).bind fun _ keyFormed =>
      (yields_take _).bind fun _ _ => (Yields.pure keyFormed).bind rest
  · exact (yields_unexpected _ _).bind rest

omit shapes h in
theorem yields_single {Q : Node → Prop} {make : Location → Node} (holds : ∀ l, Q (make l)) :
    Yields Named Q (single make) :=
  yields_mark.bind fun _ _ => yields_advance.bind fun _ _ => (yields_since _).bind fun _ _ =>
    .pure (holds _)

theorem yields_returnValue : Yields Named (Is .expression c.inLoop) (g.returnValue c) := by
  refine yields_mark.bind fun start _ => yields_advance.bind fun _ _ =>
    yields_current.bind fun token _ => ?_
  split
  · exact (Yields.pure (Q := fun value : Option Node => ∀ n ∈ value, Is .expression c.inLoop n)
      (by simp)).bind fun _ formed => (yields_since _).bind fun _ _ =>
        .pure (shapes.returnValue formed)
  · refine ((h.expression c).map (R := fun value => ∀ n ∈ value, Is .expression c.inLoop n)
      fun n formed => by simpa using formed).bind fun value formed => ?_
    exact (yields_since _).bind fun _ _ => .pure (shapes.returnValue formed)

theorem yields_array : Yields Named (Is .expression c.inLoop) (g.array c) :=
  yields_mark.bind fun _ _ => yields_advance.bind fun _ _ =>
    (yields_items (h.expression c) _).bind fun _ all => (yields_since _).bind fun _ _ =>
      .pure (shapes.array all)

theorem yields_object : Yields Named (Is .expression c.inLoop) (g.object c) :=
  yields_mark.bind fun _ _ => yields_advance.bind fun _ _ =>
    (yields_items (yields_property shapes h c) _).bind fun _ all => (yields_since _).bind fun _ _ =>
      .pure (shapes.object all)

theorem yields_keywordOperand (token : Token) (k : Keyword) :
    Yields Named (Is .expression c.inLoop) (g.keywordOperand c token k) := by
  have place : true = false ↔ Role.expression = .statement := by decide
  have leaving : ∀ make : Location → Node, (∀ l, Is .expression true (make l)) →
      Yields Named (Is .expression c.inLoop)
        (if c.inLoop then single make else reject (.outsideLoop token.text) token.loc) := by
    intro make formed
    -- The word is accepted exactly in a loop body, and there the node it makes may stand.
    split
    · rename_i inLoop
      rw [inLoop]
      exact yields_single formed
    · exact yields_reject _ _
  cases k with
  | trueKw | falseKw | nullKw => exact yields_single fun _ => shapes.constant trivial
  | ifKw => exact yields_conditional shapes h c .expression
  | whileKw => exact yields_whileLoop shapes h c place
  | forKw => exact yields_forLoop shapes h c place
  | breakKw => exact leaving _ fun _ => shapes.breakLoop
  | continueKw => exact leaving _ fun _ => shapes.continueLoop
  | returnKw => exact yields_returnValue shapes h c
  | elseKw | withKw | upKw | downKw | tillKw | inKw => exact yields_unexpected _ _

theorem yields_operand : Yields Named (Is .expression c.inLoop) (g.operand c) := by
  refine yields_current.bind fun token readable => ?_
  split
  · rename_i isInt
    rw [isInt] at readable
    exact yields_single fun _ => shapes.constant readable
  · rename_i isFloat
    rw [isFloat] at readable
    exact yields_single fun _ => shapes.constant readable
  · exact yields_single fun _ => shapes.constant trivial
  · rename_i isName
    rw [isName] at readable
    exact yields_single fun _ => shapes.name readable
  · exact yields_parenthesized shapes h c
  · exact yields_array shapes h c
  · exact yields_object shapes h c
  · exact yields_keywordOperand shapes h c token _
  · exact yields_unexpected _ _

theorem yields_trailers (start : Cursor) (n : Nat) : ∀ node : Node,
    Is .expression c.inLoop node →
    Yields Named (Is .expression c.inLoop) (g.trailers c start n node) := by
  induction n with
  | zero => exact fun _ formed => .pure formed
  | succ n ih =>
    intro node formed
    unfold trailers
    refine yields_current.bind fun token _ => ?_
    split
    · exact yields_advance.bind fun _ _ => (h.expression c).bind fun _ keyFormed =>
        (yields_take _).bind fun _ _ => (yields_since _).bind fun _ _ =>
          ih _ (shapes.index formed keyFormed)
    · split
      · exact yields_advance.bind fun _ _ => (yields_items (h.expression c) _).bind
          fun _ all => (yields_since _).bind fun _ _ =>
            ih _ (shapes.call (shapes.named formed) all)
      · exact yields_reject _ _
    · exact .pure formed

theorem yields_applied : Yields Named (Is .expression c.inLoop) (g.applied c) :=
  yields_mark.bind fun start _ => (yields_operand shapes h c).bind fun _ formed =>
    yields_remaining.bind fun n _ => yields_trailers shapes h c start n _ formed

/-! ## Operators -/

omit h

theorem yields_signed {inLoop : Bool} {operand : Parsing Node}
    (inner : Yields Named (Is .expression inLoop) operand) (n : Nat) :
    Yields Named (Is .expression inLoop) (signed operand n) := by
  induction n with
  | zero => exact inner
  | succ n ih =>
    refine yields_current.bind fun token _ => ?_
    split
    · exact inner
    · exact yields_mark.bind fun _ _ => yields_advance.bind fun _ _ => ih.bind fun _ formed =>
        (yields_since _).bind fun _ _ => .pure (shapes.unary formed)

omit shapes in
theorem yields_chainRest {inLoop : Bool} {α : Type} (op? : TokenKind → Option α)
    {combine : Location → Node → α → Node → Node} {operand : Parsing Node}
    (combined : ∀ l op a b, Is .expression inLoop a →
      Is .expression inLoop b → Is .expression inLoop (combine l a op b))
    (inner : Yields Named (Is .expression inLoop) operand) (start : Cursor) (n : Nat) :
    ∀ left : Node, Is .expression inLoop left →
      Yields Named (Is .expression inLoop) (chainRest op? combine operand start n left) := by
  induction n with
  | zero => exact fun _ formed => .pure formed
  | succ n ih =>
    intro left leftFormed
    refine yields_current.bind fun token _ => ?_
    split
    · exact .pure leftFormed
    · exact yields_advance.bind fun _ _ => inner.bind fun _ rightFormed =>
        (yields_since _).bind fun _ _ => ih _ (combined _ _ _ _ leftFormed rightFormed)

omit shapes in
theorem yields_chain {inLoop : Bool} {α : Type} (op? : TokenKind → Option α)
    {combine : Location → Node → α → Node → Node} {operand : Parsing Node}
    (combined : ∀ l op a b, Is .expression inLoop a →
      Is .expression inLoop b → Is .expression inLoop (combine l a op b))
    (inner : Yields Named (Is .expression inLoop) operand) :
    Yields Named (Is .expression inLoop) (chain op? combine operand) :=
  yields_mark.bind fun start _ => inner.bind fun _ leftFormed => yields_remaining.bind fun n _ =>
    yields_chainRest op? combined inner start n _ leftFormed

include h

theorem yields_logical : Yields Named (Is .expression c.inLoop) (g.logical c) := by
  have factor : Yields Named (Is .expression c.inLoop) (g.factor c) :=
    yields_remaining.bind fun n _ => yields_signed shapes (yields_applied shapes h c) n
  have binary : ∀ op? : TokenKind → Option BinaryOp, ∀ operand : Parsing Node,
      Yields Named (Is .expression c.inLoop) operand →
      Yields Named (Is .expression c.inLoop) (chain op? .binary operand) :=
    fun op? _ inner => yields_chain op? (fun _ _ _ _ left right => shapes.binary left right) inner
  exact yields_chain _ (fun _ _ _ _ left right => shapes.logical left right)
    (binary _ _ (binary _ _ (binary _ _ factor)))

/-! ## Expressions and statements -/

theorem yields_assignment : Yields Named (Is .expression c.inLoop) (g.assignment c) := by
  refine yields_mark.bind fun start _ => (yields_logical shapes h c).bind fun left leftFormed =>
    (yields_at _).bind fun assigns _ => ?_
  split
  · exact .pure leftFormed
  dsimp only
  split
  · exact (yields_reject (Q := fun _ => False) _ _).bind fun _ never => never.elim
  · rename_i assignable
    exact yields_advance.bind fun _ _ => (h.expression c).bind fun _ valueFormed =>
      (yields_since _).bind fun _ _ =>
        .pure (shapes.assign (by simpa using assignable) leftFormed valueFormed)

omit shapes h in
theorem yields_endStatement (expr : Node) : Yields Named Anything (endStatement c expr) := by
  refine yields_current.bind fun token _ => ?_
  split
  · exact yields_advance
  · exact yields_advance
  · exact .pure trivial
  · split
    · exact .pure trivial
    · exact yields_unexpected _ _

theorem yields_instruction : Yields Named (Is .statement c.inLoop) (g.instruction c) := by
  have place : false = false ↔ Role.statement = .statement := by decide
  refine yields_current.bind fun token _ => ?_
  split
  · exact yields_block shapes h c (by decide)
  · exact yields_conditional shapes h c .statement
  · exact yields_whileLoop shapes h c place
  · exact yields_forLoop shapes h c place
  · exact yields_mark.bind fun _ _ => (h.expression c).bind fun _ formed =>
      (yields_since _).bind fun _ _ => (yields_endStatement c _).bind fun _ _ =>
        .pure (shapes.statement formed)

/-! ## Programs -/

omit h

theorem shapely_upTo (n : Nat) : (upTo n).Shapely Named Is := by
  induction n with
  | zero => exact ⟨fun _ => yields_unexpected _ _, fun _ => yields_unexpected _ _⟩
  | succ n ih =>
    exact ⟨fun c => yields_assignment shapes ih c, fun c => yields_instruction shapes ih c⟩

theorem yields_program (d : Dictionary) :
    Yields Named (fun body => ∀ n ∈ body, Is .statement false n) (program d) :=
  yields_remaining.bind fun n _ =>
    yields_programUpTo ((shapely_upTo shapes (2 * n + 2)).statement { dictionary := d }) (n + 1)

end Grammar

/-- What the rules keep holds of the body of every accepted script. -/
theorem Shapes.of_parse (shapes : Shapes Named Is) {languages : Languages} {source name : String}
    {p : Program} (accepted : Program.parse languages source name = .ok p)
    (readable : ∀ tokens, (Reading.ofSource languages source).tokens = .ok tokens →
      ∀ token ∈ tokens, token.kind.Readable Named) :
    ∀ n ∈ p.body, Is .statement false n := by
  obtain ⟨tokens, u, read, run⟩ := Program.exists_run_of_parse accepted
  have tape : Tape.Readable Named
      { rest := tokens, eof := (Reading.ofSource languages source).eof } :=
    ⟨readable tokens read, rfl⟩
  exact (Grammar.yields_program shapes _ _ _ _ tape run).1

/-! ## Well-formed trees -/

theorem LoopTarget.isNamed_iff {target : LoopTarget} :
    target.IsNamed ↔ ∀ x ∈ target.names, IsName x.item := by
  cases target <;> simp [IsNamed, names]

/-- The rules put together well-formed trees. -/
theorem Node.shapes_wellFormed :
    Shapes IsName fun role inLoop n => n.WellFormed role inLoop where
  constant literal := ⟨by decide, literal⟩
  name named := ⟨by decide, named⟩
  block place all := ⟨place, allWellFormed_iff.2 all⟩
  statement formed := ⟨rfl, formed⟩
  assign isTarget target value := ⟨by decide, isTarget, target, value⟩
  call named all := ⟨by decide, named, allWellFormed_iff.2 all⟩
  binary left right := ⟨by decide, left, right⟩
  unary operand := ⟨by decide, operand⟩
  logical left right := ⟨by decide, left, right⟩
  conditional {_ _ _ _ _ no} test yes formed := by
    cases no with
    | none => exact ⟨test, yes⟩
    | some no => exact ⟨test, yes, formed no rfl⟩
  index owner key := ⟨by decide, owner, key⟩
  object all := ⟨by decide, allWellFormedPairs_iff.2 all⟩
  array all := ⟨by decide, allWellFormed_iff.2 all⟩
  whileLoop place test body := ⟨place, test, body⟩
  countLoop place named start bound step body := ⟨place, named, start, bound, step, body⟩
  eachLoop named collection body := ⟨rfl, LoopTarget.isNamed_iff.2 named, collection, body⟩
  breakLoop := ⟨by decide, rfl⟩
  continueLoop := ⟨by decide, rfl⟩
  returnValue {_ _ value} formed := by
    cases value with
    | none => exact Role.noConfusion
    | some value => exact ⟨by decide, formed value rfl⟩
  relocate l formed := (wellFormed_relocate l _).2 formed
  branch formed := formed.branch
  named formed := formed.2
  assigned formed := formed.2.2

namespace Program

/-- Every accepted English script has a well-formed body. -/
theorem wellFormed_of_parse {languages : Languages} {source name : String} {p : Program}
    (english : (Reading.ofSource languages source).dictionary = .english)
    (accepted : parse languages source name = .ok p) :
    ∀ n ∈ p.body, n.WellFormed .statement false := by
  refine Node.shapes_wellFormed.of_parse accepted fun tokens read token member => ?_
  rcases Reading.legible english read token member with legible | ⟨s, stray⟩
  · cases kind : token.kind <;> rw [kind] at legible <;> first | exact legible | trivial
  · rw [stray]
    trivial

end Program

end Polyglot
