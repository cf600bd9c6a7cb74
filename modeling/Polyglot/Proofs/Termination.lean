import Polyglot.Proofs.Eval.Budget
import Polyglot.Proofs.Eval.Sustained

/-!
# Termination

A limit of iterations bounds every run: it ends, no activation of a loop evaluates its body more
often than the limit allows, and the run fails for the limit exactly if an activation was to go
beyond it. Loops over elements need no limit.
-/

namespace Polyglot

variable {φ : Type}

/-! ## Trees -/

/-- Functions of the host always return. -/
def Host.Returns (host : Host φ) : Prop :=
  ∀ function args m, (outcome (host function args) m).1 ≠ .error .unfinished

/-- Functions of the host leave the limit of the interpreter as it is. -/
def Host.KeepsLimit (host : Host φ) : Prop :=
  ∀ function args m, (outcome (host function args) m).2.self.config.maxIterations =
    m.self.config.maxIterations

/-- What is needed of a host where the limit is or is not given. -/
structure Host.Steady (bound : Option Nat) (host : Host φ) : Prop where
  returns : host.Returns
  keeps : ∀ function args m, m.Limited bound → (outcome (host function args) m).2.Limited bound

namespace Host.Steady

variable {host : Host φ} {bound : Option Nat} {budget : Nat}

theorem call (steady : host.Steady bound) (function : φ) (args : List Value) :
    Bounded bound (Watched.call (host function args)) := by
  intro m limited
  have seen : (Watched.call (host function args)).seen m =
      [.call (outcome (host function args) m).1] := rfl
  rw [Watched.act_call, Eval.outcome_ofAction, endingOf_mapError_stopped, seen]
  refine ⟨steady.keeps function args m limited, ?_, fun limit _ => ⟨by simp, ?_⟩⟩
  · exact fun stopped => steady.returns function args m (programEnding_eq_unfinished.1 stopped)
  · simp [Deed.Exceeds]

/-- Watched steps obey the limit, if there is one that loops may pass or loops are only those over
elements. -/
theorem sustained (steady : host.Steady bound) (budget : Nat) :
    Sustained host budget (fun n => n.Repeats → ∃ limit ∈ bound, limit < budget)
      (fun {_} w => Bounded bound w) where
  quiet := .quiet
  bind := .bind
  visit _ _ inner := .visit _ inner
  withScope := .withScope
  call := steady.call
  repeatWhile retain enough repeats test inner move := by
    obtain ⟨limit, given, within⟩ := enough repeats
    exact .loop (.repeatWhile given test inner move retain budget 0 #[] (Nat.zero_le limit)
      (by omega))
  forEach retain items binding inner :=
    .loop (.forEach binding inner retain items 0 #[] fun limit _ => Nat.zero_le limit)

/-- Evaluating a tree obeys the limit, if there is one that its loops may pass or it has only loops
over elements. -/
theorem watch (steady : host.Steady bound) (n : Node)
    (enough : n.Repeats → ∃ limit ∈ bound, limit < budget) :
    Bounded bound (n.watch host budget) :=
  (steady.sustained budget).watch n fun _ within repeats => enough (repeats.of_within within)

/-- Running statements obeys the limit as evaluating them does. -/
theorem evalStatements (steady : host.Steady bound) (ns : List Node)
    (enough : Node.AnyRepeats ns → ∃ limit ∈ bound, limit < budget) :
    ∀ (last : Value) (m : Machine φ), m.Limited bound →
      programEnding (outcome (Program.evalStatements host budget last ns) m).1 ≠ .unfinished ∧
        ∀ limit ∈ bound, Tells limit (Program.seenStatements host budget ns m)
          (programEnding (outcome (Program.evalStatements host budget last ns) m).1) := by
  induction ns with
  | nil =>
    intro last m _
    have ended : outcome (Program.evalStatements host budget last []) m = (.ok last, m) := rfl
    rw [ended]
    exact ⟨by simp [programEnding], fun _ _ => tells_nil (by simp [programEnding])⟩
  | cons n ns ih =>
    intro last m limited
    obtain ⟨limited', finished, told⟩ :=
      steady.watch n (fun repeats => enough (.inl repeats)) m limited
    rw [Node.act_watch] at limited' finished told
    rw [outcome_evalStatements_cons, Program.seenStatements]
    rcases result : outcome (n.eval host budget) m with ⟨exit | v, m'⟩ <;>
      rw [result] at limited' finished told
    · rw [List.append_nil]
      cases exit <;> exact ⟨finished, told⟩
    · obtain ⟨finished', told'⟩ := ih (fun repeats => enough (.inr repeats)) v m' limited'
      exact ⟨finished', fun limit given => (told limit given).append (told' limit given)⟩

/-- Running a program obeys the limit as evaluating its statements does. -/
theorem executeProgram (steady : host.Steady bound) (p : Program)
    (enough : Node.AnyRepeats p.body → ∃ limit ∈ bound, limit < budget) (m : Machine φ)
    (limited : m.Limited bound) :
    (outcome (Polyglot.executeProgram host budget p) m).1 ≠ .error .unfinished ∧
      ∀ limit ∈ bound, Tells limit (p.seen host budget m)
        (programEnding (outcome (Polyglot.executeProgram host budget p) m).1) := by
  rw [outcome_executeProgram, ne_eq, ← programEnding_eq_unfinished]
  exact steady.evalStatements p.body enough .null _ limited

end Host.Steady

/-! ## Programs -/

/-- Whenever every activation of a loop may make `least` iterations or more, a run of the program
ends in one and the same way, which is not for want of iterations. -/
def Program.EndsWith (host : Host φ) (p : Program) (m : Machine φ) (least : Nat)
    (ended : Except Stop Value × Machine φ) : Prop :=
  ended.1 ≠ .error .unfinished ∧
    ∀ budget, least ≤ budget → outcome (executeProgram host budget p) m = ended

/-- A program that comes to its end with so many iterations ends in the same way with more. -/
theorem Program.endsWith_of_finished {host : Host φ} {p : Program} {m : Machine φ} {budget : Nat}
    (finished : (outcome (executeProgram host budget p) m).1 ≠ .error .unfinished) :
    p.EndsWith host m budget (outcome (executeProgram host budget p) m) :=
  ⟨finished, fun _ more => executeProgram_extends host more p m finished⟩

theorem Deed.loop_mem {a : Activation} {seen : List (Deed φ)}
    (member : a ∈ seen.filterMap Deed.activation?) : .loop a ∈ seen := by
  obtain ⟨d, member, shown⟩ := List.mem_filterMap.1 member
  cases d with
  | loop b =>
    cases shown
    exact member
  | _ => cases shown

theorem exists_exceeds {limit : Nat} {seen : List (Deed φ)} :
    (∃ d ∈ seen, d.Exceeds limit) ↔
      (∃ a, .loop a ∈ seen ∧ a.Exceeds limit) ∨
      ∃ e, .call (.error (.failed e)) ∈ seen ∧ e.kind = .iterationLimit := by
  constructor
  · rintro ⟨d, member, exceeds⟩
    cases d with
    | visit n m result => exact exceeds.elim
    | loop a => exact .inl ⟨a, member, exceeds⟩
    | call result =>
      obtain ⟨e, rfl, kind⟩ := programEnding_eq_overLimit.1 exceeds
      exact .inr ⟨e, member, kind⟩
  · rintro (⟨a, member, exceeds⟩ | ⟨e, member, kind⟩)
    · exact ⟨_, member, exceeds⟩
    · exact ⟨_, member, programEnding_eq_overLimit.2 ⟨e, rfl, kind⟩⟩

/-- Under a limit every run of every program ends, whatever the functions of the host do short of
not returning or changing the limit: no activation of a loop, however deep, evaluates its body more
often than the limit allows, and the run fails for the limit exactly if some activation had
evaluated its body that often and was to evaluate it again while the interpreter was not cancelled,
or if a function of the host failed in this way itself. A program whose only loops are loops over
elements ends without any limit, and with no iterations given to other loops. What is watched is
the evaluation itself. -/
theorem execution_bounded (host : Host φ) (returns : host.Returns) (p : Program) (m : Machine φ) :
    (∀ budget, ∀ n ∈ p.body, (n.watch host budget).act = n.eval host budget) ∧
    (∀ limit, host.KeepsLimit → m.self.config.maxIterations = some limit →
      ∃ ended, p.EndsWith host m (limit + 1) ended ∧
        ∀ budget, limit < budget →
          (∀ a, .loop a ∈ p.seen host budget m → a.bodies ≤ limit) ∧
          ((∃ e, ended.1 = .error (.failed e) ∧ e.kind = .iterationLimit) ↔
            (∃ a, .loop a ∈ p.seen host budget m ∧ a.Exceeds limit) ∨
            ∃ e, .call (.error (.failed e)) ∈ p.seen host budget m ∧
              e.kind = .iterationLimit)) ∧
    (¬ Node.AnyRepeats p.body → ∃ ended, p.EndsWith host m 0 ended) := by
  refine ⟨fun budget n _ => n.act_watch host budget, fun limit keeps limited => ?_,
    fun plain => ?_⟩
  · have steady : host.Steady (some limit) :=
      ⟨returns, fun function args m before limit given =>
        (keeps function args m).trans (before limit given)⟩
    have bounded (budget : Nat) (more : limit < budget) :=
      steady.executeProgram p (fun _ => ⟨limit, rfl, more⟩) m
        (by rintro _ ⟨⟩; exact limited)
    have ends := Program.endsWith_of_finished (bounded (limit + 1) (Nat.lt_succ_self limit)).1
    refine ⟨_, ends, fun budget more => ?_⟩
    have told := (bounded budget more).2 limit rfl
    rw [ends.2 budget more] at told
    exact ⟨told.bodies,
      programEnding_eq_overLimit.symm.trans (told.exceeds.trans exists_exceeds)⟩
  · have steady : host.Steady none := ⟨returns, fun _ _ _ _ _ given => by cases given⟩
    have finished : (outcome (executeProgram host 0 p) m).1 ≠ .error .unfinished :=
      (steady.executeProgram p (fun repeats => absurd repeats plain) m
        fun _ given => by cases given).1
    exact ⟨_, Program.endsWith_of_finished finished⟩

/-- Makes a list and goes through its two elements, writing to the list all the while. -/
def rewriting : List Node :=
  [.assign default (.name default "xs")
    (.array default [.constant default .null, .constant default .null]),
   .eachLoop default (.single ⟨"x", default⟩) (.name default "xs")
    (.assign default (.index default (.name default "xs") (.constant default (.int 1)))
      (.name default "xs")) false]

/-- Does so again and again, without end. -/
def rewritingForever : List Node :=
  [.whileLoop default (.constant default (.bool true)) (.block default rewriting) false]

/-- A new interpreter with a limit of two iterations. -/
def Machine.limited : Machine Unit :=
  { fresh with self := { fresh.self with config := { maxIterations := some 2 } } }

/-- Under a limit of two, a loop without end is stopped before its third iteration, while the loops
inside it make the two iterations that they may make; without a limit such a loop inside ends
too. -/
theorem execution_bounded_rewriting :
    Host.echo.Returns ∧ Host.echo.KeepsLimit ∧
    Machine.limited.self.config.maxIterations = some 2 ∧
    (Program.seen Host.echo 3 ⟨Program.anonymous, "", rewritingForever⟩
      Machine.limited).filterMap Deed.activation? =
        [⟨[false, false, false], 2⟩, ⟨[false, false], 2⟩, ⟨[false, false], 2⟩] ∧
    (∃ ended, Program.EndsWith Host.echo ⟨Program.anonymous, "", rewritingForever⟩
      Machine.limited 3 ended ∧ ∃ e, ended.1 = .error (.failed e) ∧ e.kind = .iterationLimit) ∧
    ¬ Node.AnyRepeats rewriting ∧
    ∃ ended, Program.EndsWith Host.echo ⟨Program.anonymous, "", rewriting⟩ Machine.fresh 0
      ended := by
  have returns : Host.echo.Returns := fun _ _ _ ended => by cases ended
  have keeps : Host.echo.KeepsLimit := fun _ _ _ => rfl
  have seen : (Program.seen Host.echo 3 ⟨Program.anonymous, "", rewritingForever⟩
      Machine.limited).filterMap Deed.activation? =
        [⟨[false, false, false], 2⟩, ⟨[false, false], 2⟩, ⟨[false, false], 2⟩] := rfl
  have plain : ¬ Node.AnyRepeats rewriting := by
    simp [rewriting, Node.AnyRepeats, Node.Repeats]
  obtain ⟨ended, ends, runs⟩ := (execution_bounded Host.echo returns
    ⟨Program.anonymous, "", rewritingForever⟩ Machine.limited).2.1 2 keeps rfl
  obtain ⟨-, fails⟩ := runs 3 (by omega)
  have outer : .loop ⟨[false, false, false], 2⟩ ∈ Program.seen Host.echo 3
      ⟨Program.anonymous, "", rewritingForever⟩ Machine.limited :=
    Deed.loop_mem (seen ▸ List.mem_cons_self)
  have failed := fails.2 (.inl ⟨_, outer, rfl, rfl⟩)
  exact ⟨returns, keeps, rfl, seen, ⟨ended, ends, failed⟩, plain,
    (execution_bounded Host.echo returns _ Machine.fresh).2.2 plain⟩

end Polyglot
