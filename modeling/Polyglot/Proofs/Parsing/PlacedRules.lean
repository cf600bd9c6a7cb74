import Polyglot.Proofs.Parsing.Placement

/-!
# The rules place their nodes

One lemma for each rule of the grammar: the node that it gives is placed, starts no earlier than
the next token and ends where reading has come to at the latest. Unrolling the rules gives the same
for the statements of whole programs.
-/

namespace Polyglot

open Parsing

variable {source : String}

/-- The node is placed between the next token of the first tape and the end of what was read when
the second one was left. -/
def Stands (source : String) (t : Tape) (n : Node) (u : Tape) : Prop :=
  n.Placed source ∧ t.here ≤ n.loc.span.start ∧ n.loc.span.stop ≤ u.readTo

/-- Expressions and statements are placed where they are read. -/
structure Grammar.Placing (source : String) (g : Grammar) : Prop where
  expression : ∀ c t, t.Placed source → Led source (Stands source t) ((g.expression c).run t)
  statement : ∀ c t, t.Placed source → Led source (Stands source t) ((g.statement c).run t)

namespace Grammar

/-- A node made of what was read since a mark is placed, if its parts are a row from there; and
then whatever follows goes on from it. -/
theorem led_madeBind {Q : Node → Tape → Prop} {t : Tape} {start : Cursor} {make : Location → Node}
    (f : Node → Parsing Node) (parts : List Location) (children : List Node)
    (placed : t.Placed source) (marks : Marks source start)
    (row : Row source start.offset parts t.readTo) (inner : ∀ n ∈ children, n.Placed source)
    (shape : ∀ l, (make l).loc = l ∧ (make l).parts = parts ∧ (make l).children = children)
    (rest : ∀ n, n.Placed source → n.loc.span.start = start.offset → n.loc.span.stop = t.readTo →
      Led source Q ((f n).run t)) :
    Led source Q ((since start >>= fun loc => f (make loc)).run t) := by
  refine (led_since placed marks row.le).bind ?_
  rintro loc _ - ⟨rfl, sound, first, last⟩
  obtain ⟨isAt, sameParts, sameChildren⟩ := shape loc
  have stands : (make loc).Placed source := by
    refine .intro ?_ ?_ ?_
    · rw [isAt]
      exact sound
    · rw [isAt, sameParts, first, last]
      exact row
    · rw [sameChildren]
      exact inner
  refine rest (make loc) stands ?_ ?_
  · rw [isAt, first]
  · rw [isAt, last]

theorem led_made {t₀ t : Tape} {start : Cursor} {make : Location → Node}
    (parts : List Location) (children : List Node) (placed : t.Placed source)
    (marks : Marks source start) (begun : t₀.here ≤ start.offset)
    (row : Row source start.offset parts t.readTo) (inner : ∀ n ∈ children, n.Placed source)
    (shape : ∀ l, (make l).loc = l ∧ (make l).parts = parts ∧ (make l).children = children) :
    Led source (Stands source t₀) ((since start >>= fun loc => pure (make loc)).run t) := by
  refine led_madeBind pure parts children placed marks row inner shape ?_
  intro n stands first last
  exact .pure placed ⟨stands, by omega, last.le⟩

/-! ## Lists -/

theorem led_itemsUpTo {α : Type} {good : α → Prop} {locs : α → List Location} {item : Parsing α}
    (inner : ∀ t, t.Placed source →
      Led source (fun a u => good a ∧ Row source t.here (locs a) u.readTo) (item.run t))
    (close : Symbol) (n : Nat) {t : Tape} (placed : t.Placed source) :
    Led source (fun as u => (∀ a ∈ as, good a) ∧ Row source t.here (as.flatMap locs) u.readTo)
      ((itemsUpTo close item n).run t) := by
  induction n generalizing t with
  | zero => exact led_unexpected placed _ _
  | succ n ih =>
    refine (led_skipEols placed).bind ?_
    rintro _ t₁ placed₁ ⟨here₁, -⟩
    refine (led_at placed₁ close).bind ?_
    rintro closes _ - ⟨rfl, ahead⟩
    split
    · rename_i isThere
      refine (led_advance placed₁ (ahead isThere)).bind ?_
      rintro _ t₂ placed₂ ⟨-, read⟩
      refine .pure placed₂ ⟨by simp, ?_⟩
      simp only [List.flatMap_nil, Row.nil_iff]
      omega
    refine (inner _ placed₁).bind ?_
    rintro first t₂ placed₂ ⟨holds, row⟩
    refine (led_skipEols placed₂).bind ?_
    rintro _ t₃ placed₃ ⟨-, read₃⟩
    -- The other items follow whether there is a comma or the closing symbol.
    have others : ∀ t₄ : Tape, t₄.Placed source → t₃.readTo ≤ t₄.here →
        Led source (fun as u => (∀ a ∈ as, good a) ∧ Row source t.here (as.flatMap locs) u.readTo)
          ((itemsUpTo close item n >>= fun rest => pure (first :: rest)).run t₄) := by
      intro t₄ placed₄ later
      refine (ih placed₄).bind ?_
      rintro rest t₅ placed₅ ⟨all, row'⟩
      refine .pure placed₅ ⟨List.forall_mem_cons.2 ⟨holds, all⟩, ?_⟩
      rw [List.flatMap_cons]
      exact (row.mono here₁ (by omega)).append row'
    refine (led_at placed₃ .comma).bind ?_
    rintro goesOn _ - ⟨rfl, aheadComma⟩
    split
    · rename_i isThere
      refine (led_advance placed₃ (aheadComma isThere)).bind ?_
      rintro _ t₄ placed₄ ⟨-, read₄⟩
      refine others t₄ placed₄ ?_
      have here₃ := placed₃.readTo_le
      have here₄ := placed₄.readTo_le
      omega
    refine (led_at placed₃ close).bind ?_
    rintro ends _ - ⟨rfl, -⟩
    split
    · refine (led_unexpected (Q := fun _ _ => False) placed₃ _ _).bind ?_
      rintro _ _ _ ⟨⟩
    · exact others _ placed₃ placed₃.readTo_le

theorem led_items {α : Type} {good : α → Prop} {locs : α → List Location} {item : Parsing α}
    (inner : ∀ t, t.Placed source →
      Led source (fun a u => good a ∧ Row source t.here (locs a) u.readTo) (item.run t))
    (close : Symbol) {t : Tape} (placed : t.Placed source) :
    Led source (fun as u => (∀ a ∈ as, good a) ∧ Row source t.here (as.flatMap locs) u.readTo)
      ((items close item).run t) := by
  refine (led_remaining placed).bind ?_
  rintro n _ - rfl
  exact led_itemsUpTo inner close (n + 1) placed


/-- Nodes that are read one by one are items with one location each. -/
theorem led_nodes {item : Parsing Node}
    (inner : ∀ t, t.Placed source → Led source (Stands source t) (item.run t))
    (close : Symbol) {t : Tape} (placed : t.Placed source) :
    Led source (fun ns u => (∀ n ∈ ns, n.Placed source) ∧
      Row source t.here (ns.map Node.loc) u.readTo) ((items close item).run t) := by
  have one : ∀ t, t.Placed source →
      Led source (fun n u => n.Placed source ∧ Row source t.here [n.loc] u.readTo) (item.run t) := by
    intro t placed
    refine (inner t placed).imp ?_
    rintro n u - ⟨stands, start, stop⟩
    exact ⟨stands, start, stands.sound, stop⟩
  refine (led_items one close placed).imp ?_
  intro ns u _ given
  rw [List.map_eq_flatMap]
  exact given

theorem led_statementsUpTo {statement : Parsing Node}
    (inner : ∀ t, t.Placed source → Led source (Stands source t) (statement.run t)) (n : Nat)
    {t : Tape} (placed : t.Placed source) :
    Led source (fun ns u => (∀ n ∈ ns, n.Placed source) ∧
      Row source t.here (ns.map Node.loc) u.readTo) ((statementsUpTo statement n).run t) := by
  induction n generalizing t with
  | zero => exact led_unexpected placed _ _
  | succ n ih =>
    refine (led_skipSeparators placed).bind ?_
    rintro _ t₁ placed₁ ⟨here₁, -⟩
    refine (led_current placed₁).bind ?_
    rintro _ _ - ⟨rfl, rfl⟩
    split
    · rename_i isClose
      refine (led_advance placed₁ (by rw [isClose]; exact TokenKind.noConfusion)).bind ?_
      rintro _ t₂ placed₂ ⟨-, read₂⟩
      refine .pure placed₂ ⟨by simp, ?_⟩
      simp only [List.map_nil, Row.nil_iff]
      omega
    · exact led_unexpected placed₁ _ _
    · refine (inner _ placed₁).bind ?_
      rintro first t₂ placed₂ ⟨stands, start, stop⟩
      refine (ih placed₂).bind ?_
      rintro rest t₃ placed₃ ⟨all, row⟩
      refine .pure placed₃ ⟨List.forall_mem_cons.2 ⟨stands, all⟩, by omega, stands.sound, ?_⟩
      exact row.mono (Nat.le_trans stop placed₂.readTo_le) (Nat.le_refl _)

theorem led_programUpTo {statement : Parsing Node}
    (inner : ∀ t, t.Placed source → Led source (Stands source t) (statement.run t)) (n : Nat)
    {t : Tape} (placed : t.Placed source) :
    Led source (fun ns u => (∀ n ∈ ns, n.Placed source) ∧
      Row source t.readTo (ns.map Node.loc) u.readTo) ((programUpTo statement n).run t) := by
  induction n generalizing t with
  | zero => exact led_unexpected placed _ _
  | succ n ih =>
    refine (led_skipSeparators placed).bind ?_
    rintro _ t₁ placed₁ ⟨-, read₁⟩
    have here₁ := placed₁.readTo_le
    refine (led_current placed₁).bind ?_
    rintro _ _ - ⟨rfl, rfl⟩
    split
    · refine .pure placed₁ ⟨by simp, ?_⟩
      simpa using read₁
    · refine (inner _ placed₁).bind ?_
      rintro first t₂ placed₂ ⟨stands, start, stop⟩
      refine (ih placed₂).bind ?_
      rintro rest t₃ placed₃ ⟨all, row⟩
      refine .pure placed₃ ⟨List.forall_mem_cons.2 ⟨stands, all⟩, by omega, stands.sound, ?_⟩
      exact row.mono stop (Nat.le_refl _)

variable {g : Grammar} (h : g.Placing source) (c : Context) {t : Tape} (placed : t.Placed source)

include h placed

theorem led_block : Led source (Stands source t) ((g.block c).run t) := by
  refine (led_mark placed).bind ?_
  rintro start _ - ⟨rfl, begun, marks⟩
  refine (led_take placed .lbrace).bind ?_
  intro _ t₁ placed₁ read₁
  refine (led_remaining placed₁).bind ?_
  rintro n _ - rfl
  refine (led_statementsUpTo (h.statement _) (n + 1) placed₁).bind ?_
  rintro body t₂ placed₂ ⟨all, row⟩
  have here₁ := placed₁.readTo_le
  exact led_made _ _ placed₂ marks begun.ge (row.mono (by omega) (Nat.le_refl _)) all
    fun _ => ⟨rfl, rfl, rfl⟩

/-! ## Conditionals and loops -/

theorem led_branch : Led source (Stands source t) ((g.branch c).run t) := by
  refine (led_skipEols placed).bind ?_
  rintro _ t₁ placed₁ ⟨here₁, -⟩
  have earlier : ∀ n u, u.Placed source → Stands source t₁ n u → Stands source t n u := by
    rintro n u - ⟨stands, start, stop⟩
    exact ⟨stands, by omega, stop⟩
  refine (led_at placed₁ .lbrace).bind ?_
  rintro opens _ - ⟨rfl, -⟩
  split
  · exact (led_block h c placed₁).imp earlier
  · exact (h.expression c _ placed₁).imp earlier

theorem led_loopBody : Led source (Stands source t) ((g.loopBody c).run t) :=
  led_branch h { c with inLoop := true } placed

theorem led_parenthesized : Led source (Stands source t) ((g.parenthesized c).run t) := by
  refine (led_mark placed).bind ?_
  rintro start _ - ⟨rfl, begun, marks⟩
  refine (led_take placed .lparen).bind ?_
  intro _ t₁ placed₁ read₁
  refine (h.expression c _ placed₁).bind ?_
  rintro inner t₂ placed₂ ⟨stands, first, last⟩
  refine (led_take placed₂ .rparen).bind ?_
  intro _ t₃ placed₃ read₃
  have here₁ := placed₁.readTo_le
  have here₂ := placed₂.readTo_le
  have ordered := stands.sound.ordered
  refine (led_since placed₃ marks (by omega)).bind ?_
  rintro loc _ - ⟨rfl, sound, start', stop'⟩
  refine .pure placed₃ ⟨stands.relocate sound ⟨by omega, by omega⟩, ?_, ?_⟩
  · rw [Node.loc_relocate]
    omega
  · rw [Node.loc_relocate]
    omega

theorem led_condition : Led source (Stands source t) ((g.condition c).run t) := by
  refine (led_at placed .lparen).bind ?_
  rintro opens _ - ⟨rfl, -⟩
  split
  · exact led_parenthesized h c placed
  · exact h.expression c _ placed

theorem led_conditional : Led source (Stands source t) ((g.conditional c).run t) := by
  refine (led_mark placed).bind ?_
  rintro start _ - ⟨rfl, begun, marks⟩
  refine (led_takeKeyword placed c.dictionary .ifKw).bind ?_
  intro _ t₁ placed₁ read₁
  refine (led_condition h c placed₁).bind ?_
  rintro test t₂ placed₂ ⟨testStands, testStart, testStop⟩
  refine (led_branch h c placed₂).bind ?_
  rintro yes t₃ placed₃ ⟨yesStands, yesStart, yesStop⟩
  have here₁ := placed₁.readTo_le
  have here₂ := placed₂.readTo_le
  have here₃ := placed₃.readTo_le
  refine (led_get placed₃).bind ?_
  rintro _ _ - ⟨rfl, rfl⟩
  split
  · refine (led_skipEols placed₃).bind ?_
    rintro _ t₄ placed₄ ⟨here₄, -⟩
    refine (led_advanceAnyway placed₄).bind ?_
    intro _ t₅ placed₅ here₅
    refine ((led_branch h c placed₅).map (R := fun no u => ∃ n, no = some n ∧ Stands source t₅ n u)
      fun n u _ stands => ⟨n, rfl, stands⟩).bind ?_
    rintro _ t₆ placed₆ ⟨no, rfl, noStands, noStart, noStop⟩
    refine led_made [test.loc, yes.loc, no.loc] [test, yes, no] placed₆ marks begun.ge
      ⟨by omega, testStands.sound, by omega, yesStands.sound, by omega, noStands.sound, noStop⟩ ?_
      fun _ => ⟨rfl, rfl, rfl⟩
    simpa using ⟨testStands, yesStands, noStands⟩
  · refine (Led.pure (Q := fun no u => no = none ∧ t₃ = u) placed₃ ⟨rfl, rfl⟩).bind ?_
    rintro _ _ - ⟨rfl, rfl⟩
    refine led_made [test.loc, yes.loc] [test, yes] placed₃ marks begun.ge
      ⟨by omega, testStands.sound, by omega, yesStands.sound, yesStop⟩ ?_ fun _ => ⟨rfl, rfl, rfl⟩
    simpa using ⟨testStands, yesStands⟩

theorem led_whileLoop (retain : Bool) :
    Led source (Stands source t) ((g.whileLoop c retain).run t) := by
  refine (led_mark placed).bind ?_
  rintro start _ - ⟨rfl, begun, marks⟩
  refine (led_takeKeyword placed c.dictionary .whileKw).bind ?_
  intro _ t₁ placed₁ read₁
  refine (led_condition h c placed₁).bind ?_
  rintro test t₂ placed₂ ⟨testStands, testStart, testStop⟩
  refine (led_loopBody h c placed₂).bind ?_
  rintro body t₃ placed₃ ⟨bodyStands, bodyStart, bodyStop⟩
  have here₁ := placed₁.readTo_le
  have here₂ := placed₂.readTo_le
  refine led_made [test.loc, body.loc] [test, body] placed₃ marks begun.ge
    ⟨by omega, testStands.sound, by omega, bodyStands.sound, bodyStop⟩ ?_ fun _ => ⟨rfl, rfl, rfl⟩
  simpa using ⟨testStands, bodyStands⟩

/-- The names of a loop over elements stand between its mark and what was read. -/
theorem led_eachLoop {t₀ : Tape} {start : Cursor} (marks : Marks source start)
    (begun : t₀.here ≤ start.offset) {target : LoopTarget}
    (named : Row source start.offset (target.names.map Located.loc) t.readTo) :
    Led source (Stands source t₀) ((g.eachLoop c start target).run t) := by
  refine (led_takeKeyword placed c.dictionary .inKw).bind ?_
  intro _ t₁ placed₁ read₁
  refine (h.expression c _ placed₁).bind ?_
  rintro collection t₂ placed₂ ⟨collectionStands, collectionStart, collectionStop⟩
  refine (led_loopBody h c placed₂).bind ?_
  rintro body t₃ placed₃ ⟨bodyStands, bodyStart, bodyStop⟩
  have here := placed.readTo_le
  have here₁ := placed₁.readTo_le
  have here₂ := placed₂.readTo_le
  refine led_made (target.names.map Located.loc ++ [collection.loc, body.loc]) [collection, body]
    placed₃ marks begun (named.append ?_) ?_ fun _ => ⟨rfl, rfl, rfl⟩
  · exact ⟨by omega, collectionStands.sound, by omega, bodyStands.sound, bodyStop⟩
  · simpa using ⟨collectionStands, bodyStands⟩

omit h in
theorem led_direction :
    Led source (fun _ u => t.here ≤ u.here) (direction.run t) := by
  refine (led_atKeyword placed .upKw).bind ?_
  rintro up _ - ⟨rfl, -⟩
  split
  · refine (led_advanceAnyway placed).bind ?_
    intro _ t₁ placed₁ here₁
    exact .pure placed₁ here₁
  refine (led_atKeyword placed .downKw).bind ?_
  rintro down _ - ⟨rfl, -⟩
  split
  · refine (led_advanceAnyway placed).bind ?_
    intro _ t₁ placed₁ here₁
    exact .pure placed₁ here₁
  · exact .pure placed (Nat.le_refl _)

/-- A step that is not written has no width, so it may stand at a token that is not yet read. -/
theorem led_step :
    Led source (fun n u => n.Placed source ∧ t.here ≤ n.loc.span.start ∧
      n.loc.span.stop ≤ u.here) ((g.step c).run t) := by
  refine (led_atKeyword placed .withKw).bind ?_
  rintro given _ - ⟨rfl, -⟩
  split
  · refine (led_advanceAnyway placed).bind ?_
    intro _ t₁ placed₁ here₁
    refine (h.expression c _ placed₁).imp ?_
    rintro n u placed₂ ⟨stands, start, stop⟩
    have here₂ := placed₂.readTo_le
    exact ⟨stands, by omega, by omega⟩
  · refine (led_mark placed).bind ?_
    rintro here _ - ⟨rfl, same, marks⟩
    have sound : Location.Sound source ⟨⟨here.offset, here.offset⟩, here.pos⟩ :=
      ⟨Nat.le_refl _, marks.boundary.le_utf8ByteSize, marks.boundary, marks.boundary, marks.pos⟩
    exact .pure placed ⟨.leaf sound rfl, same.ge, same.le⟩

/-- The counter and the start value stand between the mark of a loop and what was read. -/
theorem led_countLoop {t₀ : Tape} {start : Cursor} (marks : Marks source start)
    (begun : t₀.here ≤ start.offset) {counter : Located String} {first : Node}
    (header : Row source start.offset [counter.loc, first.loc] t.readTo)
    (firstStands : first.Placed source) (retain : Bool) :
    Led source (Stands source t₀) ((g.countLoop c start counter first retain).run t) := by
  refine (led_takeKeyword placed c.dictionary .tillKw).bind ?_
  intro _ t₁ placed₁ read₁
  refine (h.expression c _ placed₁).bind ?_
  rintro bound t₂ placed₂ ⟨boundStands, boundStart, boundStop⟩
  refine (led_direction placed₂).bind ?_
  intro direction t₃ placed₃ here₃
  refine (led_step h c placed₃).bind ?_
  rintro step t₄ placed₄ ⟨stepStands, stepStart, stepStop⟩
  refine (led_loopBody h c placed₄).bind ?_
  rintro body t₅ placed₅ ⟨bodyStands, bodyStart, bodyStop⟩
  have here := placed.readTo_le
  have here₁ := placed₁.readTo_le
  have here₂ := placed₂.readTo_le
  refine led_made ([counter.loc, first.loc] ++ [bound.loc, step.loc, body.loc])
    [first, bound, step, body] placed₅ marks begun (header.append ?_) ?_ fun _ => ⟨rfl, rfl, rfl⟩
  · exact ⟨by omega, boundStands.sound, by omega, stepStands.sound, by omega, bodyStands.sound,
      bodyStop⟩
  · simpa using ⟨firstStands, boundStands, stepStands, bodyStands⟩

theorem led_forLoop (retain : Bool) : Led source (Stands source t) ((g.forLoop c retain).run t) := by
  refine (led_mark placed).bind ?_
  rintro start _ - ⟨rfl, begun, marks⟩
  refine (led_takeKeyword placed c.dictionary .forKw).bind ?_
  intro _ t₁ placed₁ read₁
  have here₁ := placed₁.readTo_le
  refine (led_at placed₁ .lparen).bind ?_
  rintro opens _ - ⟨rfl, -⟩
  split
  · refine (led_advanceAnyway placed₁).bind ?_
    intro _ t₂ placed₂ here₂
    refine (led_takeName placed₂).bind ?_
    rintro first t₃ placed₃ ⟨firstSound, firstStart, firstStop⟩
    refine (led_take placed₃ .comma).bind ?_
    intro _ t₄ placed₄ read₄
    refine (led_takeName placed₄).bind ?_
    rintro second t₅ placed₅ ⟨secondSound, secondStart, secondStop⟩
    refine (led_take placed₅ .rparen).bind ?_
    intro _ t₆ placed₆ read₆
    have here₃ := placed₃.readTo_le
    have here₄ := placed₄.readTo_le
    have here₅ := placed₅.readTo_le
    have last : second.loc.span.stop ≤ t₆.readTo := by omega
    exact led_eachLoop h c placed₆ marks begun.ge
      ⟨by omega, firstSound, by omega, secondSound, last⟩
  refine (h.expression c _ placed₁).bind ?_
  rintro header t₂ placed₂ ⟨stands, headerStart, headerStop⟩
  -- The parts of the header become parts of the loop.
  have parts := stands.parts.mono (show start.offset ≤ _ by omega) headerStop
  split
  · refine led_countLoop h c placed₂ marks begun.ge ?_ (stands.child (by simp [Node.children])) _
    exact parts
  · rename_i target value _
    have targetStands : target.Placed source := stands.child (by simp [Node.children])
    exact led_reject targetStands.sound _
  · rename_i loc s
    refine (led_atKeyword placed₂ .inKw).bind ?_
    rintro found _ - ⟨rfl, -⟩
    split
    · refine led_eachLoop h c placed₂ marks begun.ge ⟨?_, stands.sound, headerStop⟩
      have start' : t₁.here ≤ loc.span.start := headerStart
      show start.offset ≤ loc.span.start
      omega
    · exact led_reject stands.sound _
  · exact led_reject stands.sound _

/-! ## Operands -/

theorem led_property :
    Led source (fun p u => (p.1.Placed source ∧ p.2.Placed source) ∧
      Row source t.here [p.1.loc, p.2.loc] u.readTo) ((g.property c).run t) := by
  have rest : ∀ (key : Node) (t₁ : Tape), t₁.Placed source → Stands source t key t₁ →
      Led source (fun p u => (p.1.Placed source ∧ p.2.Placed source) ∧
        Row source t.here [p.1.loc, p.2.loc] u.readTo)
        ((do take .colon; skipEols; return (key, ← g.expression c) : Parsing _).run t₁) := by
    rintro key t₁ placed₁ ⟨keyStands, keyStart, keyStop⟩
    refine (led_take placed₁ .colon).bind ?_
    intro _ t₂ placed₂ read₂
    refine (led_skipEols placed₂).bind ?_
    rintro _ t₃ placed₃ ⟨here₃, -⟩
    refine (h.expression c _ placed₃).bind ?_
    rintro value t₄ placed₄ ⟨valueStands, valueStart, valueStop⟩
    have here₁ := placed₁.readTo_le
    have here₂ := placed₂.readTo_le
    have later : key.loc.span.stop ≤ value.loc.span.start := by omega
    exact .pure placed₄ ⟨⟨keyStands, valueStands⟩, keyStart, keyStands.sound, later,
      valueStands.sound, valueStop⟩
  -- A single token is a key by itself.
  have word : ∀ (value : Constant) (t₁ : Tape), t₁.Placed source →
      t₁.readTo = t.current.loc.span.stop ∧ t.here ≤ t₁.readTo →
      Stands source t (.constant t.current.loc value) t₁ := by
    rintro value t₁ - ⟨read₁, -⟩
    exact ⟨.leaf placed.current rfl, Nat.le_refl _, read₁.ge⟩
  refine (led_current placed).bind ?_
  rintro _ _ - ⟨rfl, rfl⟩
  split
  · rename_i isText
    refine (led_advance placed (by rw [isText]; exact TokenKind.noConfusion)).bind ?_
    intro _ t₁ placed₁ taken
    exact rest _ t₁ placed₁ (word _ t₁ placed₁ taken)
  · rename_i isName
    refine (led_advance placed (by rw [isName]; exact TokenKind.noConfusion)).bind ?_
    intro _ t₁ placed₁ taken
    exact rest _ t₁ placed₁ (word _ t₁ placed₁ taken)
  · rename_i isKeyword
    refine (led_advance placed (by rw [isKeyword]; exact TokenKind.noConfusion)).bind ?_
    intro _ t₁ placed₁ taken
    exact rest _ t₁ placed₁ (word _ t₁ placed₁ taken)
  · refine (led_advanceAnyway placed).bind ?_
    intro _ t₁ placed₁ here₁
    refine (h.expression c _ placed₁).bind ?_
    rintro key t₂ placed₂ ⟨stands, start, stop⟩
    refine (led_take placed₂ .rbracket).bind ?_
    intro _ t₃ placed₃ read₃
    have here₂ := placed₂.readTo_le
    exact rest _ t₃ placed₃ ⟨stands, by omega, by omega⟩
  · refine (led_unexpected (Q := fun _ _ => False) placed _ _).bind ?_
    rintro _ _ _ ⟨⟩

omit h in
/-- A token that is there makes a node by itself. -/
theorem led_single (ahead : t.current.kind ≠ .eof) {make : Location → Node}
    (shape : ∀ l, (make l).loc = l ∧ (make l).parts = [] ∧ (make l).children = []) :
    Led source (Stands source t) ((single make).run t) := by
  refine (led_mark placed).bind ?_
  rintro start _ - ⟨rfl, begun, marks⟩
  refine (led_advance placed ahead).bind ?_
  rintro _ t₁ placed₁ ⟨-, read₁⟩
  exact led_made [] [] placed₁ marks begun.ge (begun.trans_le read₁) (by simp) shape

theorem led_returnValue (ahead : t.current.kind ≠ .eof) :
    Led source (Stands source t) ((g.returnValue c).run t) := by
  refine (led_mark placed).bind ?_
  rintro start _ - ⟨rfl, begun, marks⟩
  refine (led_advance placed ahead).bind ?_
  rintro _ t₁ placed₁ ⟨-, read₁⟩
  refine (led_current placed₁).bind ?_
  rintro _ _ - ⟨rfl, rfl⟩
  split
  · refine (Led.pure (Q := fun value u => value = none ∧ t₁ = u) placed₁ ⟨rfl, rfl⟩).bind ?_
    rintro _ _ - ⟨rfl, rfl⟩
    exact led_made [] [] placed₁ marks begun.ge (begun.trans_le read₁) (by simp)
      fun _ => ⟨rfl, rfl, rfl⟩
  · refine ((h.expression c _ placed₁).map
      (R := fun value u => ∃ n, value = some n ∧ Stands source t₁ n u)
      fun n u _ stands => ⟨n, rfl, stands⟩).bind ?_
    rintro _ t₂ placed₂ ⟨value, rfl, stands, first, last⟩
    have here₁ := placed₁.readTo_le
    refine led_made [value.loc] [value] placed₂ marks begun.ge ⟨by omega, stands.sound, last⟩ ?_
      fun _ => ⟨rfl, rfl, rfl⟩
    simpa using stands

theorem led_array (ahead : t.current.kind ≠ .eof) :
    Led source (Stands source t) ((g.array c).run t) := by
  refine (led_mark placed).bind ?_
  rintro start _ - ⟨rfl, begun, marks⟩
  refine (led_advance placed ahead).bind ?_
  rintro _ t₁ placed₁ ⟨-, read₁⟩
  refine (led_nodes (h.expression c) .rbracket placed₁).bind ?_
  rintro elements t₂ placed₂ ⟨all, row⟩
  have here₁ := placed₁.readTo_le
  exact led_made _ _ placed₂ marks begun.ge (row.mono (by omega) (Nat.le_refl _)) all
    fun _ => ⟨rfl, rfl, rfl⟩

theorem led_object (ahead : t.current.kind ≠ .eof) :
    Led source (Stands source t) ((g.object c).run t) := by
  refine (led_mark placed).bind ?_
  rintro start _ - ⟨rfl, begun, marks⟩
  refine (led_advance placed ahead).bind ?_
  rintro _ t₁ placed₁ ⟨-, read₁⟩
  refine (led_items (fun _ placed => led_property h c placed) .rbrace placed₁).bind ?_
  rintro properties t₂ placed₂ ⟨all, row⟩
  have here₁ := placed₁.readTo_le
  refine led_made (properties.flatMap fun p => [p.1.loc, p.2.loc])
    (properties.flatMap fun p => [p.1, p.2]) placed₂ marks begun.ge
    (row.mono (by omega) (Nat.le_refl _)) ?_ ?_
  · intro n member
    obtain ⟨p, listed, isPart⟩ := List.mem_flatMap.1 member
    obtain ⟨keyStands, valueStands⟩ := all p listed
    rcases (by simpa using isPart : n = p.1 ∨ n = p.2) with rfl | rfl
    · exact keyStands
    · exact valueStands
  · intro l
    refine ⟨rfl, ?_, rfl⟩
    simp [Node.parts, Node.names, Node.children, List.map_flatMap]

theorem led_keywordOperand {k : Keyword} (isNext : t.current.kind = .keyword k) :
    Led source (Stands source t) ((g.keywordOperand c t.current k).run t) := by
  have ahead : t.current.kind ≠ .eof := by
    rw [isNext]
    exact TokenKind.noConfusion
  have leaving : ∀ make : Location → Node,
      (∀ l, (make l).loc = l ∧ (make l).parts = [] ∧ (make l).children = []) →
      Led source (Stands source t) ((if c.inLoop then single make
        else reject (.outsideLoop t.current.text) t.current.loc : Parsing Node).run t) := by
    intro make shape
    split
    · exact led_single placed ahead shape
    · exact led_reject placed.current _
  cases k with
  | trueKw | falseKw | nullKw => exact led_single placed ahead fun _ => ⟨rfl, rfl, rfl⟩
  | ifKw => exact led_conditional h c placed
  | whileKw => exact led_whileLoop h c placed true
  | forKw => exact led_forLoop h c placed true
  | breakKw | continueKw => exact leaving _ fun _ => ⟨rfl, rfl, rfl⟩
  | returnKw => exact led_returnValue h c placed ahead
  | elseKw | withKw | upKw | downKw | tillKw | inKw => exact led_unexpected placed _ _

theorem led_operand : Led source (Stands source t) ((g.operand c).run t) := by
  refine (led_current placed).bind ?_
  rintro _ _ - ⟨rfl, rfl⟩
  have ahead : ∀ {kind : TokenKind}, t.current.kind = kind → kind ≠ .eof →
      t.current.kind ≠ .eof := by
    rintro _ rfl other
    exact other
  split
  · rename_i isNext
    exact led_single placed (ahead isNext TokenKind.noConfusion) fun _ => ⟨rfl, rfl, rfl⟩
  · rename_i isNext
    exact led_single placed (ahead isNext TokenKind.noConfusion) fun _ => ⟨rfl, rfl, rfl⟩
  · rename_i isNext
    exact led_single placed (ahead isNext TokenKind.noConfusion) fun _ => ⟨rfl, rfl, rfl⟩
  · rename_i isNext
    exact led_single placed (ahead isNext TokenKind.noConfusion) fun _ => ⟨rfl, rfl, rfl⟩
  · exact led_parenthesized h c placed
  · rename_i isNext
    exact led_array h c placed (ahead isNext TokenKind.noConfusion)
  · rename_i isNext
    exact led_object h c placed (ahead isNext TokenKind.noConfusion)
  · rename_i isNext
    exact led_keywordOperand h c placed isNext
  · exact led_unexpected placed _ _

/-- The calls and indexing after an operand take it into their nodes. -/
theorem led_trailers {t₀ : Tape} {start : Cursor} (marks : Marks source start)
    (begun : t₀.here ≤ start.offset) (n : Nat) {node : Node} (stands : node.Placed source)
    (first : start.offset ≤ node.loc.span.start) (last : node.loc.span.stop ≤ t.readTo) :
    Led source (Stands source t₀) ((g.trailers c start n node).run t) := by
  induction n generalizing t node with
  | zero => exact .pure placed ⟨stands, by omega, last⟩
  | succ n ih =>
    unfold trailers
    have here := placed.readTo_le
    refine (led_current placed).bind ?_
    rintro _ _ - ⟨rfl, rfl⟩
    split
    · rename_i isNext
      refine (led_advance placed (by rw [isNext]; exact TokenKind.noConfusion)).bind ?_
      rintro _ t₁ placed₁ ⟨-, read₁⟩
      refine (h.expression c _ placed₁).bind ?_
      rintro key t₂ placed₂ ⟨keyStands, keyStart, keyStop⟩
      refine (led_take placed₂ .rbracket).bind ?_
      intro _ t₃ placed₃ read₃
      have here₁ := placed₁.readTo_le
      have here₂ := placed₂.readTo_le
      have keyStop' : key.loc.span.stop ≤ t₃.readTo := by omega
      refine led_madeBind (g.trailers c start n) [node.loc, key.loc] [node, key] placed₃ marks
        ⟨first, stands.sound, by omega, keyStands.sound, keyStop'⟩ ?_ (fun _ => ⟨rfl, rfl, rfl⟩) ?_
      · simpa using ⟨stands, keyStands⟩
      · intro made madeStands madeStart madeStop
        exact ih placed₃ madeStands madeStart.ge madeStop.le
    · rename_i isNext
      split
      · rename_i loc s
        refine (led_advance placed (by rw [isNext]; exact TokenKind.noConfusion)).bind ?_
        rintro _ t₁ placed₁ ⟨-, read₁⟩
        refine (led_nodes (h.expression c) .rparen placed₁).bind ?_
        rintro args t₂ placed₂ ⟨all, row⟩
        have here₁ := placed₁.readTo_le
        have row' : Row source loc.span.stop (args.map Node.loc) t₂.readTo := by
          refine row.mono ?_ (Nat.le_refl _)
          have stop : loc.span.stop ≤ t.readTo := last
          omega
        refine led_madeBind (g.trailers c start n) (loc :: args.map Node.loc) args placed₂ marks
          ⟨first, stands.sound, row'⟩ all (fun _ => ⟨rfl, rfl, rfl⟩) ?_
        intro made madeStands madeStart madeStop
        exact ih placed₂ madeStands madeStart.ge madeStop.le
      · exact led_reject placed.current _
    · exact .pure placed ⟨stands, by omega, last⟩

theorem led_applied : Led source (Stands source t) ((g.applied c).run t) := by
  refine (led_mark placed).bind ?_
  rintro start _ - ⟨rfl, begun, marks⟩
  refine (led_operand h c placed).bind ?_
  rintro node t₁ placed₁ ⟨stands, first, last⟩
  refine (led_remaining placed₁).bind ?_
  rintro n _ - rfl
  exact led_trailers h c placed₁ marks begun.ge n stands (by omega) last

/-! ## Operators -/

omit h

theorem led_signed {operand : Parsing Node}
    (inner : ∀ t, t.Placed source → Led source (Stands source t) (operand.run t)) (n : Nat) :
    Led source (Stands source t) ((signed operand n).run t) := by
  induction n generalizing t with
  | zero => exact inner t placed
  | succ n ih =>
    refine (led_current placed).bind ?_
    rintro _ _ - ⟨rfl, rfl⟩
    split
    · exact inner t placed
    · rename_i op isOp
      have ahead : t.current.kind ≠ .eof := by
        intro ended
        rw [ended] at isOp
        cases isOp
      refine (led_mark placed).bind ?_
      rintro start _ - ⟨rfl, begun, marks⟩
      refine (led_advance placed ahead).bind ?_
      rintro _ t₁ placed₁ ⟨-, read₁⟩
      refine (ih placed₁).bind ?_
      rintro operand t₂ placed₂ ⟨stands, first, last⟩
      have here₁ := placed₁.readTo_le
      refine led_made [operand.loc] [operand] placed₂ marks begun.ge ⟨by omega, stands.sound, last⟩
        ?_ fun _ => ⟨rfl, rfl, rfl⟩
      simpa using stands

/-- The node of an operator has its two operands as parts. -/
def Joins {α : Type} (combine : Location → Node → α → Node → Node) : Prop :=
  ∀ l a op b, (combine l a op b).loc = l ∧ (combine l a op b).parts = [a.loc, b.loc] ∧
    (combine l a op b).children = [a, b]

theorem led_chainRest {α : Type} {op? : TokenKind → Option α}
    {combine : Location → Node → α → Node → Node} {operand : Parsing Node} (joins : Joins combine)
    (inner : ∀ t, t.Placed source → Led source (Stands source t) (operand.run t))
    {t₀ : Tape} {start : Cursor} (marks : Marks source start) (begun : t₀.here ≤ start.offset)
    (n : Nat) {left : Node} (stands : left.Placed source)
    (first : start.offset ≤ left.loc.span.start) (last : left.loc.span.stop ≤ t.readTo) :
    Led source (Stands source t₀) ((chainRest op? combine operand start n left).run t) := by
  induction n generalizing t left with
  | zero => exact .pure placed ⟨stands, by omega, last⟩
  | succ n ih =>
    have here := placed.readTo_le
    refine (led_current placed).bind ?_
    rintro _ _ - ⟨rfl, rfl⟩
    split
    · exact .pure placed ⟨stands, by omega, last⟩
    · rename_i op _
      refine (led_advanceAnyway placed).bind ?_
      intro _ t₁ placed₁ here₁
      refine (inner _ placed₁).bind ?_
      rintro right t₂ placed₂ ⟨rightStands, rightStart, rightStop⟩
      refine led_madeBind (chainRest op? combine operand start n) [left.loc, right.loc]
        [left, right] placed₂ marks ⟨first, stands.sound, by omega, rightStands.sound, rightStop⟩ ?_
        (fun l => joins l left op right) ?_
      · simpa using ⟨stands, rightStands⟩
      · intro made madeStands madeStart madeStop
        exact ih placed₂ madeStands madeStart.ge madeStop.le

theorem led_chain {α : Type} {op? : TokenKind → Option α}
    {combine : Location → Node → α → Node → Node} {operand : Parsing Node} (joins : Joins combine)
    (inner : ∀ t, t.Placed source → Led source (Stands source t) (operand.run t)) :
    Led source (Stands source t) ((chain op? combine operand).run t) := by
  refine (led_mark placed).bind ?_
  rintro start _ - ⟨rfl, begun, marks⟩
  refine (inner t placed).bind ?_
  rintro left t₁ placed₁ ⟨stands, first, last⟩
  refine (led_remaining placed₁).bind ?_
  rintro n _ - rfl
  exact led_chainRest placed₁ joins inner marks begun.ge n stands (by omega) last

include h

theorem led_logical : Led source (Stands source t) ((g.logical c).run t) := by
  have factor : ∀ t, t.Placed source → Led source (Stands source t) ((g.factor c).run t) := by
    intro t placed
    refine (led_remaining placed).bind ?_
    rintro n _ - rfl
    exact led_signed placed (fun _ placed => led_applied h c placed) n
  have binary : ∀ (op? : TokenKind → Option BinaryOp) (operand : Parsing Node),
      (∀ t, t.Placed source → Led source (Stands source t) (operand.run t)) →
      ∀ t, t.Placed source → Led source (Stands source t) ((chain op? .binary operand).run t) :=
    fun _ _ inner _ placed => led_chain placed (fun _ _ _ _ => ⟨rfl, rfl, rfl⟩) inner
  exact led_chain placed (fun _ _ _ _ => ⟨rfl, rfl, rfl⟩)
    (binary _ _ (binary _ _ (binary _ _ factor)))

/-! ## Expressions and statements -/

theorem led_assignment : Led source (Stands source t) ((g.assignment c).run t) := by
  refine (led_mark placed).bind ?_
  rintro start _ - ⟨rfl, begun, marks⟩
  refine (led_logical h c placed).bind ?_
  rintro left t₁ placed₁ ⟨stands, first, last⟩
  refine (led_at placed₁ .assign).bind ?_
  rintro assigns _ - ⟨rfl, -⟩
  split
  · exact .pure placed₁ ⟨stands, first, last⟩
  dsimp only
  split
  · refine (led_reject (Q := fun _ _ => False) stands.sound _).bind ?_
    rintro _ _ _ ⟨⟩
  · refine (led_advanceAnyway placed₁).bind ?_
    intro _ t₂ placed₂ here₂
    refine (h.expression c _ placed₂).bind ?_
    rintro value t₃ placed₃ ⟨valueStands, valueStart, valueStop⟩
    have here₁ := placed₁.readTo_le
    refine led_made [left.loc, value.loc] [left, value] placed₃ marks begun.ge
      ⟨by omega, stands.sound, by omega, valueStands.sound, valueStop⟩ ?_ fun _ => ⟨rfl, rfl, rfl⟩
    simpa using ⟨stands, valueStands⟩

omit h in
theorem led_endStatement (expr : Node) :
    Led source (fun _ u => t.readTo ≤ u.readTo) ((endStatement c expr).run t) := by
  refine (led_current placed).bind ?_
  rintro _ _ - ⟨rfl, rfl⟩
  split
  · exact .accepted placed.advance.1 placed.advance.2.2
  · exact .accepted placed.advance.1 placed.advance.2.2
  · exact .pure placed (Nat.le_refl _)
  · split
    · exact .pure placed (Nat.le_refl _)
    · exact led_unexpected placed _ _

theorem led_instruction : Led source (Stands source t) ((g.instruction c).run t) := by
  refine (led_current placed).bind ?_
  rintro _ _ - ⟨rfl, rfl⟩
  split
  · exact led_block h c placed
  · exact led_conditional h c placed
  · exact led_whileLoop h c placed false
  · exact led_forLoop h c placed false
  · refine (led_mark placed).bind ?_
    rintro start _ - ⟨rfl, begun, marks⟩
    refine (h.expression c _ placed).bind ?_
    rintro expr t₁ placed₁ ⟨stands, first, last⟩
    have ordered := stands.sound.ordered
    refine (led_since placed₁ marks (by omega)).bind ?_
    rintro loc _ - ⟨rfl, sound, start', stop'⟩
    refine (led_endStatement c placed₁ expr).bind ?_
    intro _ t₂ placed₂ read₂
    have made : (Node.statement loc expr).Placed source := by
      refine .intro sound ⟨?_, stands.sound, ?_⟩ ?_
      · show loc.span.start ≤ expr.loc.span.start
        omega
      · show expr.loc.span.stop ≤ loc.span.stop
        omega
      · simpa [Node.children] using stands
    refine .pure placed₂ ⟨made, ?_, ?_⟩
    · show t.here ≤ loc.span.start
      omega
    · show loc.span.stop ≤ t₂.readTo
      omega

/-! ## Programs -/

omit h

omit placed in
theorem placing_upTo (source : String) (n : Nat) : (upTo n).Placing source := by
  induction n with
  | zero =>
    refine ⟨?_, ?_⟩
    · intro c t placed
      exact led_unexpected placed _ _
    · intro c t placed
      exact led_unexpected placed _ _
  | succ n ih =>
    refine ⟨?_, ?_⟩
    · intro c t placed
      exact led_assignment ih c placed
    · intro c t placed
      exact led_instruction ih c placed

theorem led_program (d : Dictionary) :
    Led source (fun ns u => (∀ n ∈ ns, n.Placed source) ∧
      Row source t.readTo (ns.map Node.loc) u.readTo) ((program d).run t) := by
  refine (led_remaining placed).bind ?_
  rintro n _ - rfl
  exact led_programUpTo ((placing_upTo source (2 * n + 2)).statement { dictionary := d }) (n + 1)
    placed

end Grammar

end Polyglot
