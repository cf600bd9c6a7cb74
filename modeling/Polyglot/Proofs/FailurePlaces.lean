import Polyglot.Proofs.Eval.Visits
import Polyglot.Proofs.Locations

/-!
# Failures of accepted scripts

Every failure of a node of an accepted script is located inside that node, and every node around it
that is being evaluated ends with the same failure at the same place, and so does the script.
-/

namespace Polyglot

variable {φ : Type}

namespace Node

/-- The location is a sound one inside the node. -/
def Holds (source : String) (n : Node) (loc : Location) : Prop :=
  loc.Sound source ∧ loc.span.Inside n.loc.span

theorem Placed.inside {source : String} {n m : Node} (placed : m.Placed source)
    (within : n.Within m) : n.loc.span.Inside m.loc.span := by
  induction within with
  | self => exact Span.Inside.refl _
  | child member _ ih => exact (ih (placed.child member)).trans (placed.inside_child member)

/-- A placed node that fails does so at a sound location inside of it. -/
theorem Placed.exists_failure {source : String} {n : Node} (placed : n.Placed source)
    {host : Host φ} (unlocated : host.Unlocated) {budget : Nat} {m : Machine φ} {e : RuntimeError}
    (failed : (outcome (n.eval host budget) m).1 = .error (.stopped (.failed e))) :
    ∃ loc, e.loc = some loc ∧ n.Holds source loc := by
  have inside : ∀ m : Node, m.Within n →
      n.Holds source m.loc ∧ ∀ x ∈ m.names, n.Holds source x.loc := by
    intro m within
    have here := placed.within within
    have around := placed.inside within
    refine ⟨⟨here.sound, around⟩, ?_⟩
    intro x member
    have isPart : x.loc ∈ m.parts := List.mem_append_left _ (List.mem_map_of_mem member)
    exact ⟨here.parts.sound _ isPart, (here.parts.inside _ isPart).trans around⟩
  obtain ⟨loc, located⟩ := Node.exists_loc failed
  have reported := Node.reportsIn unlocated budget inside m _ failed loc located
  exact ⟨loc, located, reported⟩

end Node

/-- A program of placed statements that fails does so inside one of them. -/
theorem exists_failure_of_evalStatements {source : String} {host : Host φ}
    (unlocated : host.Unlocated) {budget : Nat} {ns : List Node}
    (placed : ∀ n ∈ ns, n.Placed source) {last : Value} {m : Machine φ} {e : RuntimeError}
    (failed : (outcome (Program.evalStatements host budget last ns) m).1 = .error (.failed e)) :
    ∃ n ∈ ns, ∃ loc, e.loc = some loc ∧ n.Holds source loc := by
  induction ns generalizing last m with
  | nil => cases failed
  | cons n ns ih =>
    have here := placed n List.mem_cons_self
    have atNode : n.Holds source n.loc := ⟨here.sound, Span.Inside.refl _⟩
    rw [outcome_evalStatements_cons] at failed
    rcases result : outcome (n.eval host budget) m with ⟨(_ | _ | v | reason) | v, m'⟩
    · rw [result] at failed
      cases failed
      exact ⟨n, List.mem_cons_self, n.loc, rfl, atNode⟩
    · rw [result] at failed
      cases failed
      exact ⟨n, List.mem_cons_self, n.loc, rfl, atNode⟩
    · rw [result] at failed
      cases failed
    · rw [result] at failed
      cases failed
      exact ⟨n, List.mem_cons_self, here.exists_failure unlocated (congrArg Prod.fst result)⟩
    · rw [result] at failed
      obtain ⟨k, member, inside⟩ := ih (fun k member => placed k (by simp [member])) failed
      exact ⟨k, List.mem_cons_of_mem _ member, inside⟩

/-- Whenever a node of an accepted script fails, on whatever machine, it does so at a sound location
inside of it. Watching an evaluation does not disturb it and shows, with its own, the evaluations of
the nodes inside: each has the result that it has by itself, and if that is a failure, it is what
every node around it and the whole script end with. So a run of the script that fails does so inside
one of its statements. -/
theorem failures_located {languages : Languages} {source name : String} {p : Program}
    (accepted : Program.parse languages source name = .ok p) {host : Host φ}
    (unlocated : host.Unlocated) (budget : Nat) :
    (∀ statement ∈ p.body, ∀ outer : Node, outer.Within statement →
      (outer.watch host budget).act = outer.eval host budget ∧
      ∀ m, (∀ e, (outcome (outer.eval host budget) m).1 = .error (.stopped (.failed e)) →
          ∃ loc, e.loc = some loc ∧ outer.Holds p.source loc) ∧
        .visit outer m (outcome (outer.eval host budget) m).1 ∈ (outer.watch host budget).seen m ∧
        ∀ n k r, .visit n k r ∈ (outer.watch host budget).seen m →
          n.Within outer ∧ r = (outcome (n.eval host budget) k).1 ∧
          ∀ e, r = .error (.stopped (.failed e)) →
            (∃ loc, e.loc = some loc ∧ n.Holds p.source loc) ∧
            (outcome (outer.eval host budget) m).1 = .error (.stopped (.failed e))) ∧
    ∀ m, (∀ n k r, .visit n k r ∈ p.seen host budget m →
        (∃ statement ∈ p.body, n.Within statement) ∧ r = (outcome (n.eval host budget) k).1 ∧
        ∀ e, r = .error (.stopped (.failed e)) →
          (∃ loc, e.loc = some loc ∧ n.Holds p.source loc) ∧
          (outcome (executeProgram host budget p) m).1 = .error (.failed e)) ∧
      ∀ e, (outcome (executeProgram host budget p) m).1 = .error (.failed e) →
        ∃ statement ∈ p.body, ∃ loc, e.loc = some loc ∧ statement.Holds p.source loc := by
  have placed : ∀ statement ∈ p.body, statement.Placed p.source := by
    rcases Program.parse_cases languages source name with ⟨body, formed, placed, -⟩ | ⟨e, failed, -⟩
    · rw [formed] at accepted
      cases accepted
      exact placed
    · rw [failed] at accepted
      cases accepted
  refine ⟨fun statement member outer around => ⟨outer.act_watch host budget, fun m => ?_⟩,
    fun m => ⟨?_, ?_⟩⟩
  · have here := (placed statement member).within around
    refine ⟨fun e failed => here.exists_failure unlocated failed,
      outer.visit_mem_seen host budget m, ?_⟩
    intro n k r seen
    have visit := Node.visit_of_seen seen
    refine ⟨visit.known, visit.result, ?_⟩
    intro e failed
    exact ⟨(here.within visit.known).exists_failure unlocated (visit.result ▸ failed),
      visit.carried e failed⟩
  · intro n k r seen
    have visit := Program.visit_of_seen seen
    refine ⟨visit.known, visit.result, ?_⟩
    intro e failed
    obtain ⟨statement, member, inside⟩ := visit.known
    have here := (placed statement member).within inside
    exact ⟨here.exists_failure unlocated (visit.result ▸ failed), visit.carried e failed⟩
  · intro e failed
    rw [outcome_executeProgram] at failed
    exact exists_failure_of_evalStatements unlocated placed failed

/-- A division by zero in a block in a loop. -/
def dividingLoop : String := "while true { 2 / 0 }"

/-- Two divided by zero. -/
def zeroQuotient (loc left right : Location) : Node :=
  .binary loc (.constant left (.int 2)) .div (.constant right (.int 0))

/-- A loop without end around a block of one statement. -/
def endlessLoop (loc test block statement : Location) (value : Node) : Node :=
  .whileLoop loc (.constant test (.bool true)) (.block block [.statement statement value]) false

/-- A new interpreter on which a script of one statement has begun. -/
def Machine.beginning (name : String) : Machine Unit :=
  fresh.report (.started name 1)

/-- The loop comes to its statement in its first iteration, where the quotient fails. -/
theorem zeroQuotient_visited (name : String) (loc test block statement l left right : Location) :
    .visit (zeroQuotient l left right) ((Machine.beginning name).pushScope "block")
      (.error (.stopped (.failed ⟨.divisionByZero, some l⟩))) ∈
    ((endlessLoop loc test block statement (zeroQuotient l left right)).watch Host.echo 1).seen
      (Machine.beginning name) :=
  List.mem_of_getElem? (i := 5) rfl

/-- The test, the location and the operands of a quotient that is all a loop does, if that is what
a program is. -/
def loopedQuotient? : Except CompileError Program → Option (Bool × Location × Int64 × Int64)
  | .ok ⟨_, _, [.whileLoop _ (.constant _ (.bool b)) (.block _ [.statement _ (.binary l
      (.constant _ (.int x)) .div (.constant _ (.int y)))]) false]⟩ => some (b, l, x, y)
  | _ => none

/-- The quotient fails where it is written, and so do the loop that comes to it and the script. -/
theorem failures_located_dividing : ∃ (p : Program) (loop quotient : Node) (k m : Machine Unit)
    (e : RuntimeError), Program.parse .builtin dividingLoop Program.anonymous = .ok p ∧
    p.body = [loop] ∧ Host.echo.Unlocated ∧ e = ⟨.divisionByZero, some ⟨⟨13, 18⟩, ⟨1, 14⟩⟩⟩ ∧
    .visit quotient k (.error (.stopped (.failed e))) ∈ (loop.watch Host.echo 1).seen m ∧
    .visit quotient k (.error (.stopped (.failed e))) ∈ p.seen Host.echo 1 Machine.fresh ∧
    quotient.Within loop ∧ (∃ loc, e.loc = some loc ∧ quotient.Holds p.source loc) ∧
    (outcome (loop.eval Host.echo 1) m).1 = .error (.stopped (.failed e)) ∧
    (outcome (executeProgram Host.echo 1 p) Machine.fresh).1 = .error (.failed e) := by
  have unlocated : Host.echo.Unlocated := by
    intro _ _ _ _ ended
    cases ended
  have shape : loopedQuotient? (Program.parse .builtin dividingLoop Program.anonymous) =
      some (true, ⟨⟨13, 18⟩, ⟨1, 14⟩⟩, 2, 0) := by
    decide +kernel
  unfold loopedQuotient? at shape
  split at shape
  · rename_i name source loc test b block statement l left x right y parsed
    cases shape
    have inLoop := zeroQuotient_visited name loc test block statement ⟨⟨13, 18⟩, ⟨1, 14⟩⟩ left right
    have inRun := List.mem_append_left [] inLoop
    have located := failures_located parsed unlocated 1
    obtain ⟨-, within⟩ := located.1 _ List.mem_cons_self _ (.self _)
    obtain ⟨-, -, visits⟩ := within (Machine.beginning name)
    obtain ⟨inside, -, carried⟩ := visits _ _ _ inLoop
    obtain ⟨-, -, ends⟩ := (located.2 Machine.fresh).1 _ _ _ inRun
    obtain ⟨here, around⟩ := carried _ rfl
    exact ⟨_, _, _, _, _, _, parsed, rfl, unlocated, rfl, inLoop, inRun, inside, here, around,
      (ends _ rfl).2⟩
  · cases shape

end Polyglot
