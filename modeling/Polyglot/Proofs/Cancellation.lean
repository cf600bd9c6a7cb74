import Polyglot.Proofs.Eval.Cancelled

/-!
# Cancellation

Once an interpreter is cancelled, its loops are over: a loop that would make an iteration fails
instead, and with it everything around it, and no loop body is evaluated any more. What a tree does
from then on does not depend on what is inside its loops, and it always comes to an end.
-/

namespace Polyglot

variable {φ : Type}

/-! ## How loops begin -/

/-- What a loop does up to the decision whether there is to be a first iteration, and whether it
keeps the values of its body. -/
structure LoopHead (φ : Type) where
  begins : Eval φ Bool
  retain : Bool

/-- The head of a loop. -/
def Node.loopHead? (host : Host φ) (budget : Nat) : Node → Option (LoopHead φ)
  | whileLoop _ condition _ retain => some
    { begins := do return (← condition.eval host budget).truthy
      retain := retain }
  | countLoop _ counter start bound direction _ _ retain => some
    { begins := Eval.withScope "for" do
        Eval.assign counter.item (← start.eval host budget)
        let limit ← Eval.boundOf bound.loc (bound.eval host budget)
        return Eval.inRange direction limit (← Eval.counterOf counter.item)
      retain := retain }
  | eachLoop _ _ collection _ retain => some
    { begins := do
        let v ← collection.eval host budget
        match ← Eval.observe fun m => m.world.heap.listItems? v with
        | none => Eval.fail (.notIterable v.typeName)
        | some items => Eval.withScope "for-of" (return !items.toList.isEmpty)
      retain := retain }
  | _ => none

namespace Eval

/-- What becomes of a loop that may not go on. -/
def haltedLoop (head : LoopHead φ) : Eval φ Value := do
  loopValue head.retain (← halt head.begins #[])

/-- The scope of a loop makes no difference to the value of the loop. -/
theorem withScope_haltedLoop (name : String) (begins : Eval φ Bool) (retain : Bool) :
    withScope name (haltedLoop ⟨begins, retain⟩) =
      haltedLoop ⟨withScope name begins, retain⟩ := by
  apply ext_outcome
  intro m
  simp only [haltedLoop, halt, outcome_withScope, outcome_bind]
  rcases outcome begins (m.pushScope name) with ⟨exit | goes, m'⟩
  · rfl
  · cases goes with
    | true => rfl
    | false => cases retain <;> rfl

theorem bind_haltedLoop {α : Type} (first : Eval φ α) (begins : α → Eval φ Bool) (retain : Bool) :
    (first >>= fun a => haltedLoop ⟨begins a, retain⟩) = haltedLoop ⟨first >>= begins, retain⟩ := by
  simp only [haltedLoop, halt, bind_assoc]

end Eval

/-- A cancelled loop begins, and then fails or ends without an iteration. -/
theorem Host.KeepsCancelled.eval_loop {host : Host φ} (keeps : host.KeepsCancelled) {budget : Nat}
    {n : Node} {head : LoopHead φ} (loop : n.loopHead? host (budget + 1) = some head) :
    Agrees host (n.eval host (budget + 1)) (Eval.locate n.loc (Eval.haltedLoop head)) := by
  have inner (k : Node) : Agrees host (k.eval host (budget + 1)) (k.eval host (budget + 1)) :=
    keeps.eval_agrees rfl
  cases n with
  | whileLoop _ condition body retain =>
    cases loop
    have test := (inner condition).bind fun c => Agrees.pure c.truthy
    simp only [Node.eval]
    exact .locate _ (.bind (test.repeatWhile_halt _ _ retain budget 0 #[]) fun kept =>
      Agrees.steps.loopValue (p := .anywhere) retain kept)
  | countLoop _ counter start bound direction step body retain =>
    cases loop
    have test := (Agrees.steps.boundOf (p := .anywhere) bound.loc (inner bound)).bind
      fun limit => (Agrees.steps.counterOf (p := .anywhere) counter.item).bind fun current =>
        Agrees.pure (Eval.inRange direction limit current)
    rw [← Eval.withScope_haltedLoop, ← Eval.bind_haltedLoop]
    simp only [Node.eval]
    refine .locate _ (.withScope _ (.bind (inner start) fun first => ?_))
    rw [← Eval.bind_haltedLoop]
    exact .bind (Agrees.steps.assign .anywhere counter.item first) fun _ =>
      .bind (test.repeatWhile_halt _ _ retain budget 0 #[]) fun kept =>
        Agrees.steps.loopValue (p := .anywhere) retain kept
  | eachLoop _ target collection body retain =>
    cases loop
    rw [← Eval.bind_haltedLoop, Node.eval_eachLoop]
    refine .locate _ (.bind (inner collection) fun v => ?_)
    rw [← Eval.bind_haltedLoop]
    refine .bind (Agrees.steps.observe .anywhere
      (Machine.visible_heap fun heap => heap.listItems? v)) fun found => ?_
    cases found with
    | none => exact .fail _
    | some items =>
      dsimp only
      rw [← Eval.withScope_haltedLoop]
      exact .withScope _ (.bind (.forEach_halt _ _ retain items.toList 0 #[]) fun kept =>
        Agrees.steps.loopValue (p := .anywhere) retain kept)
  | _ => cases loop

/-- What a cancelled loop ends with, by how it begins. -/
structure Node.HaltsOn (host : Host φ) (budget : Nat) (n : Node) (head : LoopHead φ)
    (m : Machine φ) : Prop where
  /-- A loop that is over makes no iteration. -/
  ended : ∀ m', outcome head.begins m = (.ok false, m') →
    outcome (n.eval host budget) m = outcome (Eval.loopValue head.retain #[]) m'
  /-- A loop that is to make an iteration fails. -/
  due : ∀ m', outcome head.begins m = (.ok true, m') →
    outcome (n.eval host budget) m = (.error (.stopped (.failed ⟨.cancelled, some n.loc⟩)), m')
  /-- A loop that does not come to the decision ends as its header does. -/
  left : ∀ exit m', outcome head.begins m = (.error exit, m') →
    outcome (n.eval host budget) m = (.error (exit.located n.loc), m')

theorem Host.KeepsCancelled.haltsOn {host : Host φ} (keeps : host.KeepsCancelled) {budget : Nat}
    {n : Node} {head : LoopHead φ} (loop : n.loopHead? host (budget + 1) = some head)
    {m : Machine φ} (cancelled : m.self.cancelled = true) :
    n.HaltsOn host (budget + 1) head m := by
  have same := (keeps.eval_loop loop m cancelled).same
  rw [Eval.outcome_locate, Eval.haltedLoop, Eval.halt, outcome_bind, outcome_bind] at same
  refine ⟨fun m' began => ?_, fun m' began => ?_, fun exit m' began => ?_⟩
  · rw [same, began]
    cases head.retain <;> rfl
  · rw [same, began]
    rfl
  · rw [same, began]
    rfl

/-! ## Cancellation -/

/-- On a cancelled machine, under functions of the host that leave it cancelled, a tree ends like
every tree that differs from it only inside the iterations of loops, with the same machine left
behind and whatever number of iterations loops may make; the machine stays cancelled, also for all
nodes evaluated in the tree, and the tree comes to its end if functions of the host return. A loop
does what its header does; then it ends without an iteration, or it fails as cancelled whatever its
limit is, and so does every tree and every program in whose run, watched without disturbing it, the
loop is seen to be evaluated on that machine. Loops under way make no further iteration either. -/
theorem cancellation_stops_loops {host : Host φ} (keeps : host.KeepsCancelled) {m : Machine φ}
    (cancelled : m.self.cancelled = true) (n : Node) :
    (∀ n' : Node, n.hollow = n'.hollow → ∀ budget budget',
      outcome (n.eval host (budget + 1)) m = outcome (n'.eval host (budget' + 1)) m) ∧
    (∀ budget, (outcome (n.eval host (budget + 1)) m).2.self.cancelled = true) ∧
    (∀ budget, (n.watch host budget).act = n.eval host budget ∧
      .visit n m (outcome (n.eval host budget) m).1 ∈ (n.watch host budget).seen m ∧
      ∀ inner k r, .visit inner k r ∈ (n.watch host budget).seen m → k.self.cancelled = true) ∧
    (host.Returns → ∀ budget,
      (outcome (n.eval host (budget + 1)) m).1 ≠ .error (.stopped .unfinished)) ∧
    (∀ budget head, n.loopHead? host (budget + 1) = some head →
      n.HaltsOn host (budget + 1) head m ∧
      ((outcome head.begins m).1 = .ok true →
        (∀ (outer : Node) k r, .visit n m r ∈ (outer.watch host (budget + 1)).seen k →
          (outcome (outer.eval host (budget + 1)) k).1 =
            .error (.stopped (.failed ⟨.cancelled, some n.loc⟩))) ∧
        ∀ (p : Program) k r, .visit n m r ∈ p.seen host (budget + 1) k →
          (outcome (executeProgram host (budget + 1) p) k).1 =
            .error (.failed ⟨.cancelled, some n.loc⟩))) ∧
    (∀ goesOn : Eval φ Bool, (outcome goesOn m).2.self.cancelled = true →
      ∀ body advance retain fuel count kept,
        outcome (Eval.repeatWhile goesOn body advance retain (fuel + 1) count kept) m =
          outcome (Eval.halt goesOn kept) m) ∧
    (∀ bind body retain items count kept,
      outcome (Eval.forEach bind body retain items count kept) m =
        outcome (Eval.halt (pure !items.isEmpty) kept) m) := by
  have itself (budget : Nat) :
      Agrees host (n.eval host (budget + 1)) (n.eval host (budget + 1)) := keeps.eval_agrees rfl
  refine ⟨?_, ?_, ?_, ?_, ?_, ?_, ?_⟩
  · intro n' alike budget budget'
    exact (keeps.eval_agrees alike m cancelled).same
  · intro budget
    exact (itself budget m cancelled).cancelled
  · intro budget
    refine ⟨n.act_watch host budget, n.visit_mem_seen host budget m, ?_⟩
    intro inner k r seen
    exact (Node.visit_of_seen seen).cancelled keeps cancelled
  · intro returns budget
    exact (itself budget m cancelled).finished returns
  · intro budget head loop
    have halts := keeps.haltsOn loop cancelled
    refine ⟨halts, fun begins => ?_⟩
    have failed : (outcome (n.eval host (budget + 1)) m).1 =
        .error (.stopped (.failed ⟨.cancelled, some n.loc⟩)) := by
      rw [halts.due (outcome head.begins m).2 (Prod.ext begins rfl)]
    refine ⟨?_, ?_⟩
    · intro outer k r seen
      have visit := Node.visit_of_seen seen
      exact visit.carried _ (visit.result.trans failed)
    · intro p k r seen
      have visit := Program.visit_of_seen seen
      exact visit.carried _ (visit.result.trans failed)
  · intro goesOn after body advance retain fuel count kept
    exact Eval.outcome_repeatWhile_eq_halt after body advance retain fuel count kept
  · intro bind body retain items count kept
    exact Eval.outcome_forEach_eq_halt cancelled bind body retain items count kept

/-- A loop without end: its condition is a loop over no elements, whose value is an empty list. -/
def endlessAfterIdle (target : LoopTarget) (body : Node) : Node :=
  .whileLoop ⟨⟨4, 9⟩, ⟨1, 5⟩⟩ (.eachLoop default target (.array default []) body true) body false

/-- A program of such a loop in a block. -/
def endlessProgram (target : LoopTarget) (body : Node) : Program :=
  ⟨Program.anonymous, "", [.block default [endlessAfterIdle target body]]⟩

/-- A cancelled interpreter whose limit allows no iteration. -/
def Machine.halted : Machine Unit :=
  { fresh with
    self := { fresh.self with config := { maxIterations := some 0 }, cancelled := true } }

/-- The machine on which that program comes to its loop. -/
def Machine.haltedInBlock : Machine Unit :=
  (halted.report (.started Program.anonymous 1)).pushScope "block"

/-- Whatever the loop does to an element and in its body, it fails where it stands and for having
been cancelled, and the program in whose run it is seen fails with it. -/
theorem cancellation_stops_loops_endless :
    Host.echo.KeepsCancelled ∧ Host.echo.Returns ∧
    Machine.haltedInBlock.self.cancelled = true ∧
    (endlessAfterIdle default (.breakLoop default)).hollow =
      (endlessAfterIdle (.pair default default) (.returnValue default none)).hollow ∧
    outcome ((endlessAfterIdle default (.breakLoop default)).eval Host.echo 1)
        Machine.haltedInBlock =
      outcome ((endlessAfterIdle (.pair default default) (.returnValue default none)).eval
        Host.echo 7) Machine.haltedInBlock ∧
    .visit (endlessAfterIdle default (.breakLoop default)) Machine.haltedInBlock
        (.error (.stopped (.failed ⟨.cancelled, some ⟨⟨4, 9⟩, ⟨1, 5⟩⟩⟩))) ∈
      Program.seen Host.echo 1 (endlessProgram default (.breakLoop default)) Machine.halted ∧
    (outcome (executeProgram Host.echo 1 (endlessProgram default (.breakLoop default)))
      Machine.halted).1 = .error (.failed ⟨.cancelled, some ⟨⟨4, 9⟩, ⟨1, 5⟩⟩⟩) := by
  have keeps : Host.echo.KeepsCancelled := fun _ _ _ cancelled => cancelled
  have returns : Host.echo.Returns := fun _ _ _ ended => by cases ended
  obtain ⟨same, -, -, -, loops, -⟩ := cancellation_stops_loops keeps
    (m := Machine.haltedInBlock) rfl (endlessAfterIdle default (.breakLoop default))
  have seen : .visit (endlessAfterIdle default (.breakLoop default)) Machine.haltedInBlock
        (.error (.stopped (.failed ⟨.cancelled, some ⟨⟨4, 9⟩, ⟨1, 5⟩⟩⟩))) ∈
      Program.seen Host.echo 1 (endlessProgram default (.breakLoop default)) Machine.halted :=
    List.mem_of_getElem? (i := 1) rfl
  have begins : ∀ head, (endlessAfterIdle default (.breakLoop default)).loopHead? Host.echo 1 =
      some head → (outcome head.begins Machine.haltedInBlock).1 = .ok true := by
    rintro _ ⟨⟩
    rfl
  obtain ⟨-, aborts⟩ := loops 0 _ rfl
  have alike := same (endlessAfterIdle (.pair default default) (.returnValue default none)) rfl 0 6
  exact ⟨keeps, returns, rfl, rfl, alike, seen, (aborts (begins _ rfl)).2 _ _ _ seen⟩

end Polyglot
