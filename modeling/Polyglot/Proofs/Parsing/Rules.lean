import Mathlib.Data.List.Forall2
import Polyglot.Proofs.Parsing.Agreement
import Polyglot.Proofs.Program.Relocation
import Polyglot.Proofs.Program.Sound

/-!
# What the rules of the grammar agree on

Every rule of the grammar gives on tapes alike the same tree but for locations, whatever the
dictionaries, and a tree that is sound where it stands. There is one lemma for each rule, over a
grammar whose own expressions and statements are already known to do so; unrolling the rules then
gives it for whole programs.
-/

namespace Polyglot

namespace Node

/-- The same tree but for locations, and a sound one. -/
structure Alike (p : Place) (n n' : Node) : Prop where
  same : n.erase = n'.erase
  sound : n.Sound p

/-- The same key and the same value. -/
def PairAlike (p : Place) (e e' : Node × Node) : Prop :=
  e.1.Alike p e'.1 ∧ e.2.Alike p e'.2

variable {p : Place} {n n' : Node}

@[simp] theorem erase_relocate (l : Location) (n : Node) : (n.relocate l).erase = n.erase := by
  cases n with
  | conditional _ _ _ elseBranch => cases elseBranch <;> rfl
  | returnValue _ value => cases value <;> rfl
  | _ => rfl

/-- Only a name is the same as a name. -/
theorem eq_name_of_erase {l : Location} {s : String} (same : n.erase = (name l s).erase) :
    ∃ l', n = name l' s := by
  cases n with
  | name l' _ =>
    cases same
    exact ⟨l', rfl⟩
  | conditional _ _ _ elseBranch => cases elseBranch <;> cases same
  | returnValue _ value => cases value <;> cases same
  | _ => cases same

/-- Only an assignment is the same as an assignment. -/
theorem eq_assign_of_erase {l : Location} {target value : Node}
    (same : n.erase = (assign l target value).erase) :
    ∃ l' target' value', n = assign l' target' value' ∧ target'.erase = target.erase ∧
      value'.erase = value.erase := by
  cases n with
  | assign l' target' value' =>
    obtain ⟨-, sameTarget, sameValue⟩ := assign.inj same
    exact ⟨l', target', value', rfl, sameTarget, sameValue⟩
  | conditional _ _ _ elseBranch => cases elseBranch <;> cases same
  | returnValue _ value => cases value <;> cases same
  | _ => cases same

namespace Alike

theorem relocate (l l' : Location) (h : n.Alike p n') : (n.relocate l).Alike p (n'.relocate l') :=
  ⟨by rw [erase_relocate, erase_relocate, h.same], (sound_relocate l n).2 h.sound⟩

theorem isTarget (h : n.Alike p n') : Grammar.isTarget n = Grammar.isTarget n' := by
  rw [← isTarget_mapLoc (fun _ => default) n, ← isTarget_mapLoc (fun _ => default) n']
  exact congrArg Grammar.isTarget h.same

theorem conditional {test test' yes yes' : Node} {no no' : Option Node} {l l' : Location}
    (sameTest : test.Alike p test') (sameYes : yes.Alike p yes')
    (sameNo : Option.Rel (Alike p) no no') :
    (Node.conditional l test yes no).Alike p (Node.conditional l' test' yes' no') := by
  cases sameNo with
  | none =>
    have same : Node.conditional default test.erase yes.erase none =
        Node.conditional default test'.erase yes'.erase none := by
      rw [sameTest.same, sameYes.same]
    exact ⟨same, sameTest.sound, sameYes.sound⟩
  | @some no no' sameNo =>
    have same : Node.conditional default test.erase yes.erase (some no.erase) =
        Node.conditional default test'.erase yes'.erase (some no'.erase) := by
      rw [sameTest.same, sameYes.same, sameNo.same]
    exact ⟨same, sameTest.sound, sameYes.sound, sameNo.sound⟩

theorem returnValue {value value' : Option Node} {l l' : Location}
    (sameValue : Option.Rel (Alike p) value value') :
    (Node.returnValue l value).Alike p (Node.returnValue l' value') := by
  cases sameValue with
  | none => exact ⟨rfl, trivial⟩
  | some inner =>
    exact ⟨congrArg (fun n => Node.returnValue default (some n)) inner.same, inner.sound⟩

theorem all {ns ns' : List Node} (h : List.Forall₂ (Alike p) ns ns') :
    mapLocAll (fun _ => default) ns = mapLocAll (fun _ => default) ns' ∧ AllSound p ns := by
  induction h with
  | nil => exact ⟨rfl, trivial⟩
  | cons first _ ih => exact ⟨congrArg₂ List.cons first.same ih.1, first.sound, ih.2⟩

theorem allPairs {ps ps' : List (Node × Node)} (h : List.Forall₂ (PairAlike p) ps ps') :
    mapLocPairs (fun _ => default) ps = mapLocPairs (fun _ => default) ps' ∧
      AllSoundPairs p ps := by
  induction h with
  | nil => exact ⟨rfl, trivial⟩
  | cons first _ ih =>
    exact ⟨congrArg₂ List.cons (congrArg₂ Prod.mk first.1.same first.2.same) ih.1,
      first.1.sound, first.2.sound, ih.2⟩

end Alike

end Node

open Parsing

/-- The place of a tree read in a context. -/
def Context.place (c : Context) : Place :=
  if c.inLoop then .inLoop else .outside

/-- Contexts that differ in their dictionaries only. -/
structure Context.Alike (c c' : Context) : Prop where
  inLoop : c.inLoop = c'.inLoop
  inBlock : c.inBlock = c'.inBlock

theorem Context.place_body (c : Context) : c.place.body = .inLoop := by
  unfold place
  split <;> rfl

/-- Expressions and statements agree but for their locations and are sound where they stand. -/
structure Grammar.Consistent (g : Grammar) : Prop where
  expression : ∀ {c c'}, c.Alike c' →
    Agree (Node.Alike c.place) (g.expression c) (g.expression c')
  statement : ∀ {c c'}, c.Alike c' →
    Agree (Node.Alike c.place) (g.statement c) (g.statement c')

namespace Grammar

/-! ## Lists -/

theorem agree_itemsUpTo {α β : Type} {R : α → β → Prop} {item : Parsing α} {item' : Parsing β}
    (inner : Agree R item item') (close : Symbol) (n : Nat) :
    Agree (List.Forall₂ R) (itemsUpTo close item n) (itemsUpTo close item' n) := by
  induction n with
  | zero => exact agree_unexpected _ _ _ _
  | succ n ih =>
    refine agree_skipEols.bind fun _ _ _ => (agree_at close).bindEq fun closes => ?_
    split
    · exact agree_advance.bind fun _ _ _ => .pure .nil
    refine inner.bind fun first first' related => agree_skipEols.bind fun _ _ _ =>
      (agree_at .comma).bindEq fun goesOn => ?_
    have others : Agree (List.Forall₂ R)
        (itemsUpTo close item n >>= fun rest => pure (first :: rest))
        (itemsUpTo close item' n >>= fun rest => pure (first' :: rest)) :=
      ih.bind fun _ _ rest => .pure (.cons related rest)
    split
    · exact agree_advance.bind fun _ _ _ => others
    refine (agree_at close).bindEq fun ends => ?_
    split
    · exact (agree_unexpected (R := Eq) _ _ _ _).bind fun _ _ _ => others
    · exact others

theorem agree_items {α β : Type} {R : α → β → Prop} {item : Parsing α} {item' : Parsing β}
    (inner : Agree R item item') (close : Symbol) :
    Agree (List.Forall₂ R) (items close item) (items close item') :=
  agree_remaining.bindEq fun n => agree_itemsUpTo inner close (n + 1)

theorem agree_statementsUpTo {p : Place} {statement statement' : Parsing Node}
    (inner : Agree (Node.Alike p) statement statement') (n : Nat) :
    Agree (List.Forall₂ (Node.Alike p)) (statementsUpTo statement n)
      (statementsUpTo statement' n) := by
  induction n with
  | zero => exact agree_unexpected _ _ _ _
  | succ n ih =>
    refine agree_skipSeparators.bind fun _ _ _ => agree_current.bind fun token token' same => ?_
    rw [same]
    split
    · exact agree_advance.bind fun _ _ _ => .pure .nil
    · exact agree_unexpected _ _ _ _
    · exact inner.bind fun _ _ first => ih.bind fun _ _ rest => .pure (.cons first rest)

theorem agree_programUpTo {p : Place} {statement statement' : Parsing Node}
    (inner : Agree (Node.Alike p) statement statement') (n : Nat) :
    Agree (List.Forall₂ (Node.Alike p)) (programUpTo statement n) (programUpTo statement' n) := by
  induction n with
  | zero => exact agree_unexpected _ _ _ _
  | succ n ih =>
    refine agree_skipSeparators.bind fun _ _ _ => agree_current.bind fun token token' same => ?_
    rw [same]
    split
    · exact .pure .nil
    · exact inner.bind fun _ _ first => ih.bind fun _ _ rest => .pure (.cons first rest)

variable {g : Grammar} (h : g.Consistent) {c c' : Context} (alike : c.Alike c')

include h alike

theorem agree_block : Agree (Node.Alike c.place) (g.block c) (g.block c') := by
  have inside : Context.Alike { c with inBlock := true } { c' with inBlock := true } :=
    ⟨alike.inLoop, rfl⟩
  refine agree_mark.bind fun _ _ _ => (agree_take _).bind fun _ _ _ =>
    agree_remaining.bindEq fun n => (agree_statementsUpTo (h.statement inside) (n + 1)).bind
      fun _ _ body => (agree_since _ _).bind fun _ _ _ => .pure ?_
  exact ⟨congrArg (Node.block default) (Node.Alike.all body).1, (Node.Alike.all body).2⟩

/-! ## Conditionals and loops -/

theorem agree_branch : Agree (Node.Alike c.place) (g.branch c) (g.branch c') := by
  refine agree_skipEols.bind fun _ _ _ => (agree_at _).bindEq fun opens => ?_
  split
  · exact agree_block h alike
  · exact h.expression alike

theorem agree_loopBody : Agree (Node.Alike c.place.body) (g.loopBody c) (g.loopBody c') := by
  have inside : Context.Alike { c with inLoop := true } { c' with inLoop := true } :=
    ⟨rfl, alike.inBlock⟩
  -- Only the body is read as inside the loop; the header is read in the context around it.
  rw [c.place_body]
  exact agree_branch h inside

theorem agree_parenthesized :
    Agree (Node.Alike c.place) (g.parenthesized c) (g.parenthesized c') :=
  agree_mark.bind fun _ _ _ => (agree_take _).bind fun _ _ _ =>
    (h.expression alike).bind fun _ _ inner => (agree_take _).bind fun _ _ _ =>
      (agree_since _ _).bind fun _ _ _ => .pure (inner.relocate _ _)

theorem agree_condition : Agree (Node.Alike c.place) (g.condition c) (g.condition c') := by
  refine (agree_at _).bindEq fun opens => ?_
  split
  · exact agree_parenthesized h alike
  · exact h.expression alike

theorem agree_conditional : Agree (Node.Alike c.place) (g.conditional c) (g.conditional c') := by
  refine agree_mark.bind fun start start' _ => (agree_takeKeyword _ _ _).bind fun _ _ _ =>
    (agree_condition h alike).bind fun test test' sameTest =>
      (agree_branch h alike).bind fun yes yes' sameYes => agree_get.bind fun t u tapes => ?_
  have whole : ∀ no no', Option.Rel (Node.Alike c.place) no no' → Agree (Node.Alike c.place)
      (since start >>= fun loc => pure (Node.conditional loc test yes no))
      (since start' >>= fun loc => pure (Node.conditional loc test' yes' no')) :=
    fun _ _ sameNo => (agree_since _ _).bind fun _ _ _ =>
      .pure (sameTest.conditional sameYes sameNo)
  rw [tapes.pastEols]
  split
  · exact agree_skipEols.bind fun _ _ _ => agree_advance.bind fun _ _ _ =>
      ((agree_branch h alike).map fun _ _ => .some).bind whole
  · exact (Agree.pure .none).bind whole

theorem agree_whileLoop (retain : Bool) :
    Agree (Node.Alike c.place) (g.whileLoop c retain) (g.whileLoop c' retain) := by
  refine agree_mark.bind fun _ _ _ => (agree_takeKeyword _ _ _).bind fun _ _ _ =>
    (agree_condition h alike).bind fun test test' sameTest =>
      (agree_loopBody h alike).bind fun body body' sameBody =>
        (agree_since _ _).bind fun _ _ _ => .pure ?_
  have same : Node.whileLoop default test.erase body.erase retain =
      Node.whileLoop default test'.erase body'.erase retain := by
    rw [sameTest.same, sameBody.same]
  exact ⟨same, sameTest.sound, sameBody.sound⟩

theorem agree_eachLoop (start start' : Cursor) {target target' : LoopTarget}
    (sameTarget : target.mapLoc (fun _ => default) = target'.mapLoc fun _ => default) :
    Agree (Node.Alike c.place) (g.eachLoop c start target) (g.eachLoop c' start' target') := by
  refine (agree_takeKeyword _ _ _).bind fun _ _ _ =>
    (h.expression alike).bind fun items items' sameItems =>
      (agree_loopBody h alike).bind fun body body' sameBody =>
        (agree_since _ _).bind fun _ _ _ => .pure ?_
  have same : Node.eachLoop default (target.mapLoc fun _ => default) items.erase body.erase true =
      Node.eachLoop default (target'.mapLoc fun _ => default) items'.erase body'.erase true := by
    rw [sameTarget, sameItems.same, sameBody.same]
  exact ⟨same, sameItems.sound, sameBody.sound⟩

omit h alike in
theorem agree_direction : Agree Eq direction direction := by
  refine (agree_atKeyword _).bindEq fun up => ?_
  split
  · exact agree_advance.bind fun _ _ _ => .pure rfl
  refine (agree_atKeyword _).bindEq fun down => ?_
  split
  · exact agree_advance.bind fun _ _ _ => .pure rfl
  · exact .pure rfl

theorem agree_step : Agree (Node.Alike c.place) (g.step c) (g.step c') := by
  refine (agree_atKeyword _).bindEq fun given => ?_
  split
  · exact agree_advance.bind fun _ _ _ => h.expression alike
  · exact agree_mark.bind fun _ _ _ => .pure ⟨rfl, trivial⟩

theorem agree_countLoop (start start' : Cursor) (counter counter' : Located String)
    {first first' : Node} (sameCounter : counter.item = counter'.item)
    (sameFirst : first.Alike c.place first') (retain : Bool) :
    Agree (Node.Alike c.place) (g.countLoop c start counter first retain)
      (g.countLoop c' start' counter' first' retain) := by
  refine (agree_takeKeyword _ _ _).bind fun _ _ _ =>
    (h.expression alike).bind fun bound bound' sameBound =>
      agree_direction.bindEq fun direction => (agree_step h alike).bind fun step step' sameStep =>
        (agree_loopBody h alike).bind fun body body' sameBody =>
          (agree_since _ _).bind fun _ _ _ => .pure ?_
  have same : Node.countLoop default ⟨counter.item, default⟩ first.erase bound.erase direction
        step.erase body.erase retain =
      Node.countLoop default ⟨counter'.item, default⟩ first'.erase bound'.erase direction
        step'.erase body'.erase retain := by
    rw [sameCounter, sameFirst.same, sameBound.same, sameStep.same, sameBody.same]
  exact ⟨same, sameFirst.sound, sameBound.sound, sameStep.sound, sameBody.sound⟩

theorem agree_forLoop (retain : Bool) :
    Agree (Node.Alike c.place) (g.forLoop c retain) (g.forLoop c' retain) := by
  refine agree_mark.bind fun start start' _ => (agree_takeKeyword _ _ _).bind fun _ _ _ =>
    (agree_at _).bindEq fun opens => ?_
  split
  · refine agree_advance.bind fun _ _ _ => agree_takeName.bind fun first first' sameFirst =>
      (agree_take _).bind fun _ _ _ => agree_takeName.bind fun second second' sameSecond =>
        (agree_take _).bind fun _ _ _ => agree_eachLoop h alike start start' ?_
    rw [LoopTarget.mapLoc, LoopTarget.mapLoc, Located.mapLoc, Located.mapLoc, sameFirst]
    exact congrArg (fun s => LoopTarget.pair _ ⟨s, default⟩) sameSecond
  refine (h.expression alike).bind fun header header' same => ?_
  split
  · rename_i l s first
    obtain ⟨_, target, first', rfl, sameTarget, sameFirst⟩ :=
      Node.eq_assign_of_erase same.same.symm
    obtain ⟨l', rfl⟩ := Node.eq_name_of_erase sameTarget
    exact agree_countLoop h alike start start' ⟨s, l⟩ ⟨s, l'⟩ rfl
      ⟨sameFirst.symm, same.sound.2.2⟩ retain
  · rename_i notName
    obtain ⟨_, target', _, rfl, sameTarget, -⟩ := Node.eq_assign_of_erase same.same.symm
    split
    · rename_i isName
      cases isName
      obtain ⟨l, rfl⟩ := Node.eq_name_of_erase sameTarget.symm
      exact absurd rfl (notName l _)
    · exact agree_reject _ _ _ _
    · rename_i isName
      cases isName
    · exact agree_reject _ _ _ _
  · obtain ⟨l', rfl⟩ := Node.eq_name_of_erase same.same.symm
    refine (agree_atKeyword _).bindEq fun found => ?_
    split
    · exact agree_eachLoop h alike start start' rfl
    · exact agree_reject _ _ _ _
  · rename_i notAssign notName
    split
    · obtain ⟨l, target, value, rfl, -⟩ := Node.eq_assign_of_erase same.same
      exact absurd rfl (notAssign l target value)
    · exact agree_reject _ _ _ _
    · obtain ⟨l, rfl⟩ := Node.eq_name_of_erase same.same
      exact absurd rfl (notName l _)
    · exact agree_reject _ _ _ _

/-! ## Operands -/

/-- The rest of a property; its keys need only be alike if they are followed by a colon. -/
theorem agreed_afterKey {key key' : Node} {t u : Tape} (tapes : t.Alike u)
    (sameKey : t.current.kind = .symbol .colon → key.Alike c.place key') :
    Agreed (Node.PairAlike c.place)
      (StateT.run (do take .colon; skipEols; return (key, ← g.expression c)) t)
      (StateT.run (do take .colon; skipEols; return (key', ← g.expression c')) u) :=
  agreed_takeBind tapes fun colon => agree_skipEols.bind fun _ _ _ =>
    (h.expression alike).bind fun _ _ sameValue => .pure ⟨sameKey colon, sameValue⟩

theorem agree_property : Agree (Node.PairAlike c.place) (g.property c) (g.property c') := by
  have rest : ∀ key key', Node.Alike c.place key key' → Agree (Node.PairAlike c.place)
      (do take .colon; skipEols; return (key, ← g.expression c))
      (do take .colon; skipEols; return (key', ← g.expression c')) :=
    fun _ _ sameKey _ _ tapes => agreed_afterKey h alike tapes fun _ => sameKey
  refine agree_currentBind fun t u tapes => ?_
  rw [← tapes.current]
  split
  · exact (agree_advance.bind fun _ _ _ => (Agree.pure ⟨rfl, trivial⟩).bind rest) t u tapes
  · rename_i isName
    have sameKey := congrArg (fun s => Node.constant default (.text s)) (tapes.nameText isName)
    exact (agree_advance.bind fun _ _ _ => (Agree.pure ⟨sameKey, trivial⟩).bind rest) t u tapes
  · -- The key is the spelling of the keyword, which matters only if a colon follows.
    rename_i isKeyword
    refine agreed_afterKey h alike tapes.advance fun colon => ⟨?_, trivial⟩
    exact congrArg (fun s => Node.constant default (.text s)) (tapes.keyText isKeyword colon)
  · exact (agree_advance.bind fun _ _ _ => (h.expression alike).bind fun _ _ sameKey =>
      (agree_take _).bind fun _ _ _ => (Agree.pure sameKey).bind rest) t u tapes
  · exact ((agree_unexpected _ _ _ _).bind rest) t u tapes

omit h alike in
theorem agree_single {p : Place} {make make' : Location → Node}
    (same : ∀ l l', (make l).Alike p (make' l')) :
    Agree (Node.Alike p) (single make) (single make') :=
  agree_mark.bind fun _ _ _ => agree_advance.bind fun _ _ _ => (agree_since _ _).bind fun _ _ _ =>
    .pure (same _ _)

theorem agree_returnValue : Agree (Node.Alike c.place) (g.returnValue c) (g.returnValue c') := by
  refine agree_mark.bind fun start start' _ => agree_advance.bind fun _ _ _ =>
    agree_current.bind fun token token' same => ?_
  have whole : ∀ value value', Option.Rel (Node.Alike c.place) value value' →
      Agree (Node.Alike c.place)
        (since start >>= fun loc => pure (Node.returnValue loc value))
        (since start' >>= fun loc => pure (Node.returnValue loc value')) :=
    fun _ _ sameValue => (agree_since _ _).bind fun _ _ _ => .pure (.returnValue sameValue)
  rw [same]
  split
  · exact (Agree.pure .none).bind whole
  · exact ((h.expression alike).map fun _ _ => .some).bind whole

theorem agree_array : Agree (Node.Alike c.place) (g.array c) (g.array c') := by
  refine agree_mark.bind fun _ _ _ => agree_advance.bind fun _ _ _ =>
    (agree_items (h.expression alike) _).bind fun _ _ elements =>
      (agree_since _ _).bind fun _ _ _ => .pure ?_
  exact ⟨congrArg (Node.array default) (Node.Alike.all elements).1, (Node.Alike.all elements).2⟩

theorem agree_object : Agree (Node.Alike c.place) (g.object c) (g.object c') := by
  refine agree_mark.bind fun _ _ _ => agree_advance.bind fun _ _ _ =>
    (agree_items (agree_property h alike) _).bind fun _ _ properties =>
      (agree_since _ _).bind fun _ _ _ => .pure ?_
  exact ⟨congrArg (Node.object default) (Node.Alike.allPairs properties).1,
    (Node.Alike.allPairs properties).2⟩

theorem agree_keywordOperand (token token' : Token) (k : Keyword) :
    Agree (Node.Alike c.place) (g.keywordOperand c token k) (g.keywordOperand c' token' k) := by
  have leaving : ∀ make : Location → Node, (∀ l l', (make l).Alike .inLoop (make l')) →
      Agree (Node.Alike c.place)
        (if c.inLoop then single make else reject (.outsideLoop token.text) token.loc)
        (if c'.inLoop then single make else reject (.outsideLoop token'.text) token'.loc) := by
    intro make same
    -- The word is accepted exactly in a loop body, and there the node it makes is sound.
    rw [← alike.inLoop, Context.place]
    split
    · exact agree_single same
    · exact agree_reject _ _ _ _
  cases k with
  | trueKw | falseKw | nullKw => exact agree_single fun _ _ => ⟨rfl, trivial⟩
  | ifKw => exact agree_conditional h alike
  | whileKw => exact agree_whileLoop h alike true
  | forKw => exact agree_forLoop h alike true
  | breakKw | continueKw => exact leaving _ fun _ _ => ⟨rfl, by simp [Node.Sound]⟩
  | returnKw => exact agree_returnValue h alike
  | elseKw | withKw | upKw | downKw | tillKw | inKw => exact agree_unexpected _ _ _ _

theorem agree_operand : Agree (Node.Alike c.place) (g.operand c) (g.operand c') := by
  refine agree_current.bind fun token token' same => ?_
  rw [same]
  split
  · exact agree_single fun _ _ => ⟨rfl, trivial⟩
  · exact agree_single fun _ _ => ⟨rfl, trivial⟩
  · exact agree_single fun _ _ => ⟨rfl, trivial⟩
  · exact agree_single fun _ _ => ⟨rfl, trivial⟩
  · exact agree_parenthesized h alike
  · exact agree_array h alike
  · exact agree_object h alike
  · exact agree_keywordOperand h alike token token' _
  · exact agree_unexpected _ _ _ _

theorem agree_trailers (start start' : Cursor) (n : Nat) : ∀ node node',
    Node.Alike c.place node node' →
    Agree (Node.Alike c.place) (g.trailers c start n node) (g.trailers c' start' n node') := by
  induction n with
  | zero => exact fun _ _ same => .pure same
  | succ n ih =>
    intro node node' same
    unfold trailers
    refine agree_current.bind fun token token' sameKind => ?_
    rw [sameKind]
    split
    · refine agree_advance.bind fun _ _ _ => (h.expression alike).bind fun _ _ key =>
        (agree_take _).bind fun _ _ _ => (agree_since _ _).bind fun _ _ _ => ih _ _ ?_
      exact ⟨congrArg₂ (Node.index default) same.same key.same, same.sound, key.sound⟩
    · split
      · rename_i s
        obtain ⟨l', rfl⟩ := Node.eq_name_of_erase same.same.symm
        refine agree_advance.bind fun _ _ _ => (agree_items (h.expression alike) _).bind
          fun _ _ args => (agree_since _ _).bind fun _ _ _ => ih _ _ ?_
        exact ⟨congrArg (Node.call default ⟨s, default⟩) (Node.Alike.all args).1,
          (Node.Alike.all args).2⟩
      · rename_i notName
        split
        · obtain ⟨l, rfl⟩ := Node.eq_name_of_erase same.same
          exact absurd rfl (notName l _)
        · exact agree_reject _ _ _ _
    · exact .pure same

theorem agree_applied : Agree (Node.Alike c.place) (g.applied c) (g.applied c') :=
  agree_mark.bind fun start start' _ => (agree_operand h alike).bind fun _ _ same =>
    agree_remaining.bindEq fun n => agree_trailers h alike start start' n _ _ same

/-! ## Operators -/

omit h alike in
theorem agree_signed {p : Place} {operand operand' : Parsing Node}
    (inner : Agree (Node.Alike p) operand operand') (n : Nat) :
    Agree (Node.Alike p) (signed operand n) (signed operand' n) := by
  induction n with
  | zero => exact inner
  | succ n ih =>
    refine agree_current.bind fun token token' same => ?_
    rw [same]
    split
    · exact inner
    · rename_i op _
      refine agree_mark.bind fun _ _ _ => agree_advance.bind fun _ _ _ => ih.bind fun _ _ same =>
        (agree_since _ _).bind fun _ _ _ => .pure ?_
      exact ⟨congrArg (Node.unary default op) same.same, same.sound⟩

omit h alike in
theorem agree_chainRest {p : Place} {α : Type} (op? : TokenKind → Option α)
    {combine : Location → Node → α → Node → Node} {operand operand' : Parsing Node}
    (combined : ∀ l l' op a a' b b', Node.Alike p a a' → Node.Alike p b b' →
      Node.Alike p (combine l a op b) (combine l' a' op b'))
    (inner : Agree (Node.Alike p) operand operand') (start start' : Cursor) (n : Nat) :
    ∀ left left', Node.Alike p left left' →
      Agree (Node.Alike p) (chainRest op? combine operand start n left)
        (chainRest op? combine operand' start' n left') := by
  induction n with
  | zero => exact fun _ _ same => .pure same
  | succ n ih =>
    intro left left' sameLeft
    refine agree_current.bind fun token token' same => ?_
    rw [same]
    split
    · exact .pure sameLeft
    · exact agree_advance.bind fun _ _ _ => inner.bind fun _ _ sameRight =>
        (agree_since _ _).bind fun _ _ _ => ih _ _ (combined _ _ _ _ _ _ _ sameLeft sameRight)

omit h alike in
theorem agree_chain {p : Place} {α : Type} (op? : TokenKind → Option α)
    {combine : Location → Node → α → Node → Node} {operand operand' : Parsing Node}
    (combined : ∀ l l' op a a' b b', Node.Alike p a a' → Node.Alike p b b' →
      Node.Alike p (combine l a op b) (combine l' a' op b'))
    (inner : Agree (Node.Alike p) operand operand') :
    Agree (Node.Alike p) (chain op? combine operand) (chain op? combine operand') :=
  agree_mark.bind fun start start' _ => inner.bind fun _ _ sameLeft =>
    agree_remaining.bindEq fun n =>
      agree_chainRest op? combined inner start start' n _ _ sameLeft

omit h alike in
theorem agree_binaryChain {p : Place} (op? : TokenKind → Option BinaryOp)
    {operand operand' : Parsing Node} (inner : Agree (Node.Alike p) operand operand') :
    Agree (Node.Alike p) (chain op? .binary operand) (chain op? .binary operand') := by
  refine agree_chain op? (fun _ _ op _ _ _ _ left right => ⟨?_, left.sound, right.sound⟩) inner
  exact congrArg₂ (Node.binary default · op ·) left.same right.same

theorem agree_logical : Agree (Node.Alike c.place) (g.logical c) (g.logical c') := by
  have factor : Agree (Node.Alike c.place) (g.factor c) (g.factor c') :=
    agree_remaining.bindEq fun n => agree_signed (agree_applied h alike) n
  have comparison : Agree (Node.Alike c.place) (g.comparison c) (g.comparison c') :=
    agree_binaryChain _ (agree_binaryChain _ (agree_binaryChain _ factor))
  refine agree_chain _ (fun _ _ op _ _ _ _ left right => ⟨?_, left.sound, right.sound⟩) comparison
  exact congrArg₂ (Node.logical default · op ·) left.same right.same

/-! ## Expressions and statements -/

theorem agree_assignment : Agree (Node.Alike c.place) (g.assignment c) (g.assignment c') := by
  refine agree_mark.bind fun start start' _ => (agree_logical h alike).bind fun left left' same =>
    (agree_at _).bindEq fun assigns => ?_
  split
  · exact .pure same
  dsimp only
  rw [← same.isTarget]
  split
  · exact (Agree.bind (R := fun _ _ => False) (agree_reject _ _ _ _)) fun _ _ never => never.elim
  · rename_i assignable
    refine agree_advance.bind fun _ _ _ => (h.expression alike).bind fun _ _ value =>
      (agree_since _ _).bind fun _ _ _ => .pure ?_
    exact ⟨congrArg₂ (Node.assign default) same.same value.same, .inl (by simpa using assignable),
      same.sound, value.sound⟩

omit h in
theorem agree_endStatement (expr expr' : Node) :
    Agree Whatever (endStatement c expr) (endStatement c' expr') := by
  refine agree_current.bind fun token token' same => ?_
  rw [same]
  split
  · exact agree_advance
  · exact agree_advance
  · exact .pure trivial
  · rw [alike.inBlock]
    split
    · exact .pure trivial
    · exact agree_unexpected _ _ _ _

theorem agree_instruction : Agree (Node.Alike c.place) (g.instruction c) (g.instruction c') := by
  refine agree_current.bind fun token token' same => ?_
  rw [same]
  split
  · exact agree_block h alike
  · exact agree_conditional h alike
  · exact agree_whileLoop h alike false
  · exact agree_forLoop h alike false
  · refine agree_mark.bind fun _ _ _ => (h.expression alike).bind fun _ _ same =>
      (agree_since _ _).bind fun _ _ _ => (agree_endStatement alike _ _).bind fun _ _ _ => .pure ?_
    exact ⟨congrArg (Node.statement default) same.same, same.sound⟩

/-! ## Programs -/

omit h alike

theorem consistent_upTo (n : Nat) : (upTo n).Consistent := by
  induction n with
  | zero => exact ⟨fun _ => agree_unexpected _ _ _ _, fun _ => agree_unexpected _ _ _ _⟩
  | succ n ih =>
    exact ⟨fun alike => agree_assignment ih alike, fun alike => agree_instruction ih alike⟩

/-- On tapes alike the same statements are read, whatever the dictionaries. -/
theorem agree_program (d d' : Dictionary) :
    Agree (List.Forall₂ (Node.Alike .outside)) (program d) (program d') := by
  have outside : Context.Alike { dictionary := d } { dictionary := d' } := ⟨rfl, rfl⟩
  exact agree_remaining.bindEq fun n =>
    agree_programUpTo ((consistent_upTo (2 * n + 2)).statement outside) (n + 1)

end Grammar

/-- A result that is no error is a value. -/
theorem exists_of_isOk {ε α : Type} {result : Except ε α} (isOk : result.isOk = true) :
    ∃ a, result = .ok a := by
  cases result with
  | error e => cases isOk
  | ok a => exact ⟨a, rfl⟩

namespace Program

theorem ofReading_of_tokens {r : Reading} {tokens : List Token} (read : r.tokens = .ok tokens)
    (name source : String) :
    ofReading name source r =
      ((Grammar.program r.dictionary).run { rest := tokens, eof := r.eof }).map fun result =>
        ⟨name, source, result.1⟩ := by
  unfold ofReading
  rw [read]
  dsimp only [bind, Except.bind]
  cases (Grammar.program r.dictionary).run { rest := tokens, eof := r.eof } <;> rfl

/-- Readings with tokens alike are both rejected, or their programs are the same but for
locations. -/
theorem ofReading_alike {r r' : Reading} {tokens tokens' : List Token}
    (read : r.tokens = .ok tokens) (read' : r'.tokens = .ok tokens')
    (alike : SameTokens tokens tokens') (ends : r.eof.kind = .eof) (ends' : r'.eof.kind = .eof)
    (name source name' source' : String) :
    (∃ e e', ofReading name source r = .error e ∧ ofReading name' source' r' = .error e') ∨
    ∃ body body', ofReading name source r = .ok ⟨name, source, body⟩ ∧
      ofReading name' source' r' = .ok ⟨name', source', body'⟩ ∧
      List.Forall₂ (Node.Alike .outside) body body' := by
  have agreed := Grammar.agree_program r.dictionary r'.dictionary
    { rest := tokens, eof := r.eof } { rest := tokens', eof := r'.eof } ⟨alike, ends, ends'⟩
  rw [ofReading_of_tokens read, ofReading_of_tokens read']
  generalize (Grammar.program r.dictionary).run _ = result,
    (Grammar.program r'.dictionary).run _ = result' at agreed
  cases agreed with
  | rejected e e' => exact .inl ⟨e, e', rfl, rfl⟩
  | accepted related _ => exact .inr ⟨_, _, rfl, rfl, related⟩

/-- An accepted script has tokens, and its statements are read from them. -/
theorem exists_run_of_parse {languages : Languages} {source name : String} {p : Program}
    (accepted : parse languages source name = .ok p) :
    ∃ tokens u, (Reading.ofSource languages source).tokens = .ok tokens ∧
      (Grammar.program (Reading.ofSource languages source).dictionary).run
        { rest := tokens, eof := (Reading.ofSource languages source).eof } = .ok (p.body, u) := by
  unfold parse at accepted
  cases read : (Reading.ofSource languages source).tokens with
  | error e =>
    unfold ofReading at accepted
    rw [read] at accepted
    cases accepted
  | ok tokens =>
    rw [ofReading_of_tokens read] at accepted
    cases result : (Grammar.program (Reading.ofSource languages source).dictionary).run
        { rest := tokens, eof := (Reading.ofSource languages source).eof } with
    | error e =>
      rw [result] at accepted
      cases accepted
    | ok outcome =>
      rw [result] at accepted
      cases accepted
      exact ⟨tokens, outcome.2, rfl, result⟩

/-- Every accepted script is sound: no loop is left or continued outside of one, and nothing is
assigned to but names and indexed values. -/
theorem sound_of_parse {languages : Languages} {source name : String} {p : Program}
    (accepted : parse languages source name = .ok p) : Node.AllSound .outside p.body := by
  obtain ⟨tokens, u, -, run⟩ := exists_run_of_parse accepted
  have alike : Tape.Alike { rest := tokens, eof := (Reading.ofSource languages source).eof }
      { rest := tokens, eof := (Reading.ofSource languages source).eof } :=
    ⟨.refl tokens, rfl, rfl⟩
  have agreed := Grammar.agree_program (Reading.ofSource languages source).dictionary
    (Reading.ofSource languages source).dictionary _ _ alike
  rw [run] at agreed
  cases agreed with
  | accepted related _ => exact (Node.Alike.all related).2

end Program

end Polyglot
