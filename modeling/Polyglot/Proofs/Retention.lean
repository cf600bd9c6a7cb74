import Polyglot.Proofs.Eval.Rounds

/-!
# Keeping the values of a loop

Whether a loop keeps the values of its body decides only what the value of the loop is. The same
loop with and without keeping makes the same rounds and leaves the same machine, and if it is left
by an exit, it is the same exit. A loop that comes to its end is null if it keeps nothing; if it
keeps its values, it is a new list of the values of those rounds that ended with one.
-/

namespace Polyglot

variable {φ α : Type}

/-- The same machine with one more list. -/
def Machine.withList (m : Machine φ) (items : Array Value) : Machine φ :=
  { m with world := { m.world with heap := (m.world.heap.newList items).2 } }

/-- What becomes of a loop that keeps nothing, and of the same loop if it keeps the values of its
rounds. -/
inductive Retained (rounds : List (Round φ)) :
    Except Exit Value × Machine φ → Except Exit Value × Machine φ → Prop
  | exit (e : Exit) (m : Machine φ) : Retained rounds (.error e, m) (.error e, m)
  | finished (m : Machine φ) :
    Retained rounds (.ok .null, m)
      (.ok (.list m.world.heap.lists.size), m.withList (Round.values rounds).toArray)

namespace Retained

variable {rounds : List (Round φ)} {dropped kept : Except Exit Value × Machine φ}

theorem locate (loc : Location) (retained : Retained rounds dropped kept) :
    Retained rounds (dropped.1.mapError (Exit.located loc), dropped.2)
      (kept.1.mapError (Exit.located loc), kept.2) := by
  cases retained with
  | exit e m => exact .exit (e.located loc) m
  | finished m => exact .finished m

/-- Leaving scopes has nothing to do with containers. -/
theorem truncate (depth : Nat) (retained : Retained rounds dropped kept) :
    Retained rounds (dropped.1, dropped.2.truncate depth) (kept.1, kept.2.truncate depth) := by
  cases retained with
  | exit e m => exact .exit e (m.truncate depth)
  | finished m => exact .finished (m.truncate depth)

end Retained

/-- On the machine, a loop that keeps nothing and the same loop that keeps its values differ in
their value at most. -/
structure DiffersInValue (body : Eval φ Value) (dropping keeping : Watched (Round φ) φ Value)
    (m : Machine φ) : Prop where
  bodies : ∀ r ∈ dropping.seen m, r.Evaluates body
  rounds : keeping.seen m = dropping.seen m
  ended : Retained (dropping.seen m) (outcome dropping.act m) (outcome keeping.act m)

namespace DiffersInValue

open Watched

variable {body : Eval φ Value} {m : Machine φ}

theorem keepRounds_true (kept : Array Value) (rounds : List (Round φ)) :
    Eval.keepRounds true kept rounds = kept ++ (Round.values rounds).toArray := by
  unfold Eval.keepRounds
  induction Round.values rounds generalizing kept with
  | nil => simp
  | cons v values ih => simp [Eval.keep, ih]

/-- A loop that has a course differs in its value only. -/
theorem ofCourse {loop : Bool → Array Value → Watched (Round φ) φ (Array Value)}
    (course : HasCourse body loop) (m : Machine φ) :
    DiffersInValue body
      (loop false #[] >>= fun kept => quiet (Eval.loopValue false kept))
      (loop true #[] >>= fun kept => quiet (Eval.loopValue true kept)) m := by
  obtain ⟨⟨rounds, ended, after⟩, bodies, seen, ends⟩ := course m
  dsimp only at bodies seen ends
  have seen' (retain : Bool) :
      (loop retain #[] >>= fun kept => quiet (Eval.loopValue retain kept)).seen m = rounds := by
    rw [← seen retain #[]]
    cases ended with
    | error exit => exact seen_bind_error _ (ends retain #[])
    | ok _ =>
      rw [seen_bind_ok _ (ends retain #[])]
      exact List.append_nil _
  refine ⟨?_, ?_, ?_⟩
  · rw [seen' false]
    exact bodies
  · rw [seen' true, seen' false]
  · simp only [seen' false, act_bind, act_quiet, outcome_bind, ends]
    cases ended with
    | error exit => exact .exit exit after
    | ok _ =>
      have kept := keepRounds_true #[] rounds
      rw [Array.empty_append] at kept
      simp only [Except.map, kept]
      exact .finished after

theorem fail (fault : RuntimeFault) :
    DiffersInValue body (quiet (Eval.fail fault)) (quiet (Eval.fail fault)) m :=
  ⟨by simp [quiet], rfl, .exit _ m⟩

/-- What both do before they begin makes no difference. -/
theorem first {act : Eval φ α} {dropping keeping : α → Watched (Round φ) φ Value}
    (rest : ∀ a m', DiffersInValue body (dropping a) (keeping a) m') :
    DiffersInValue body (quiet act >>= dropping) (quiet act >>= keeping) m := by
  rcases result : outcome act m with ⟨exit | a, m'⟩
  · have none (next : α → Watched (Round φ) φ Value) : (quiet act >>= next).seen m = [] :=
      seen_bind_error next result
    refine ⟨?_, ?_, ?_⟩
    · simp [none]
    · rw [none, none]
    · simp only [act_bind, act_quiet, outcome_bind, result]
      exact .exit exit m'
  · have later (next : α → Watched (Round φ) φ Value) :
        (quiet act >>= next).seen m = (next a).seen m' :=
      seen_bind_ok next result
    obtain ⟨bodies, rounds, ended⟩ := rest a m'
    refine ⟨?_, ?_, ?_⟩
    · rw [later]
      exact bodies
    · rw [later, later, rounds]
    · simp only [later, act_bind, act_quiet, outcome_bind, result]
      exact ended

theorem locate {dropping keeping : Watched (Round φ) φ Value} (loc : Location)
    (inner : DiffersInValue body dropping keeping m) :
    DiffersInValue body (dropping.locate loc) (keeping.locate loc) m := by
  obtain ⟨bodies, rounds, ended⟩ := inner
  refine ⟨bodies, rounds, ?_⟩
  rw [act_locate, act_locate, Eval.outcome_locate, Eval.outcome_locate]
  exact ended.locate loc

theorem withScope {dropping keeping : Watched (Round φ) φ Value} (name : String)
    (inner : DiffersInValue body dropping keeping (m.pushScope name)) :
    DiffersInValue body (dropping.withScope name) (keeping.withScope name) m := by
  obtain ⟨bodies, rounds, ended⟩ := inner
  refine ⟨bodies, rounds, ?_⟩
  rw [act_withScope, act_withScope, Eval.outcome_withScope, Eval.outcome_withScope]
  exact ended.truncate m.self.scopes.depth

end DiffersInValue

/-! ## Loops of a program -/

namespace Node

/-- The body of a loop. -/
def loopBody? : Node → Option Node
  | whileLoop _ _ body _ | countLoop _ _ _ _ _ _ body _ | eachLoop _ _ _ body _ => some body
  | _ => none

/-- The same loop, keeping the values of its body or not. -/
def retaining (retain : Bool) : Node → Node
  | whileLoop loc condition body _ => whileLoop loc condition body retain
  | countLoop loc counter start bound direction step body _ =>
    countLoop loc counter start bound direction step body retain
  | eachLoop loc target collection body _ => eachLoop loc target collection body retain
  | n => n

theorem differsInValue (host : Host φ) (budget : Nat) {n body : Node}
    (loop : n.loopBody? = some body) (m : Machine φ) :
    DiffersInValue (body.eval host budget) ((n.retaining false).watchRounds host budget)
      ((n.retaining true).watchRounds host budget) m := by
  cases n with
  | whileLoop loc condition body _ =>
    cases loop
    exact .locate loc (.ofCourse (.repeatRounds _ _ budget 0) m)
  | countLoop loc counter start bound direction step body _ =>
    cases loop
    exact .locate loc (.withScope "for" (.first fun first m' => .first fun _ m'' =>
      .ofCourse (.repeatRounds _ _ budget 0) m''))
  | eachLoop loc target collection body _ =>
    cases loop
    refine .locate loc (.first fun v m' => .first fun found m'' => ?_)
    cases found with
    | none => exact .fail _
    | some items => exact .withScope "for-of" (.ofCourse (.forEachRounds _ items.toList 0) _)
  | _ => cases loop

end Node

/-- A loop of whatever kind, evaluated on a machine with and without keeping the values of its body,
makes the same rounds, each of them an evaluation of the body. Left by a failure or another exit, it
is left by the same one both times, and the machine is the same. If it comes to its end, the loop
that keeps nothing is null; the one that keeps its values is a new list, which holds in turn the
values of the rounds that ended with one, and has changed nothing else. What is watched is the
evaluation itself. -/
theorem retention_decides_value (host : Host φ) (budget : Nat) {n body : Node}
    (loop : n.loopBody? = some body) (m : Machine φ) :
    let rounds := (n.retaining false).rounds host budget m
    (∀ retain, ((n.retaining retain).watchRounds host budget).act =
      (n.retaining retain).eval host budget) ∧
    (n.retaining true).rounds host budget m = rounds ∧
    (∀ r ∈ rounds, outcome (body.eval host budget) r.before = (r.result, r.after)) ∧
    Retained rounds (outcome ((n.retaining false).eval host budget) m)
      (outcome ((n.retaining true).eval host budget) m) := by
  obtain ⟨bodies, rounds, ended⟩ := Node.differsInValue host budget loop m
  rw [Node.act_watchRounds, Node.act_watchRounds] at ended
  exact ⟨fun retain => Node.act_watchRounds host budget _, rounds, bodies, ended⟩

/-- A body that goes on with the next element at null, leaves the loop at what else is not true, and
otherwise gives the element. -/
def pickingBody : Node :=
  .conditional default
    (.logical default (.name default "x") .nullish (.continueLoop default))
    (.name default "x") (some (.breakLoop default))

/-- Picks from the elements of a list. -/
def picking : Node :=
  .eachLoop default (.single ⟨"x", default⟩)
    (.array default [.constant default (.text "a"), .constant default .null,
      .constant default (.text "b"), .constant default (.bool false),
      .constant default (.text "c")])
    pickingBody false

/-- Of four rounds two have a value; the list of the two is the second one there is. -/
theorem retention_decides_value_picking :
    let rounds := (picking.retaining true).rounds Host.echo 0 Machine.fresh
    let keeping := outcome ((picking.retaining true).eval Host.echo 0) Machine.fresh
    let dropping := outcome ((picking.retaining false).eval Host.echo 0) Machine.fresh
    picking.loopBody? = some pickingBody ∧
    (picking.retaining false).rounds Host.echo 0 Machine.fresh = rounds ∧
    rounds.map Round.result = [.ok (.text "a"), .error .continueLoop, .ok (.text "b"),
      .error .breakLoop] ∧
    dropping.1 = .ok .null ∧ keeping.1 = .ok (.list 1) ∧
    keeping.2 = dropping.2.withList #[.text "a", .text "b"] := by
  obtain ⟨-, same, -, retained⟩ :=
    retention_decides_value Host.echo 0 (n := picking) rfl Machine.fresh
  refine ⟨rfl, same.symm, rfl, rfl, rfl, ?_⟩
  generalize dropped : outcome ((picking.retaining false).eval Host.echo 0) Machine.fresh = d,
    kept : outcome ((picking.retaining true).eval Host.echo 0) Machine.fresh = k at retained ⊢
  cases retained with
  | exit e m => cases dropped
  | finished m => rfl

end Polyglot
