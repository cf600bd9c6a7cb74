import Polyglot.Proofs.Eval.Congruence

/-!
# Where failures are reported

A failure is given a location once, by the innermost construct that locates it, and keeps it from
then on. So the failures of a tree are reported at locations of the tree itself, if the functions of
the host report theirs at none.
-/

namespace Polyglot

variable {φ α β : Type}

/-- Functions of the host whose failures have no location. -/
def Host.Unlocated (host : Host φ) : Prop :=
  ∀ function args m e, (outcome (host function args) m).1 = .error (.failed e) → e.loc = none

/-- An exit that is a failure with a location has one in the given set. -/
def Exit.ReportedIn (places : Location → Prop) : Exit → Prop
  | .stopped (.failed e) => ∀ loc ∈ e.loc, places loc
  | _ => True

theorem Exit.ReportedIn.located {places : Location → Prop} {exit : Exit}
    (reported : exit.ReportedIn places) {loc : Location} (known : places loc) :
    (exit.located loc).ReportedIn places := by
  rcases exit with _ | _ | _ | (e | _)
  · trivial
  · trivial
  · trivial
  · rintro l ⟨⟩
    cases here : e.loc with
    | none => simpa [here] using known
    | some l => simpa [here] using reported l here
  · trivial

/-- Every run of an action ends with a value, or with an exit reported in the given set. -/
def ReportsIn (places : Location → Prop) (act : Eval φ α) : Prop :=
  ∀ m exit, (outcome act m).1 = .error exit → exit.ReportedIn places

namespace ReportsIn

variable {places : Location → Prop}

theorem bind {act : Eval φ α} {next : α → Eval φ β} (first : ReportsIn places act)
    (rest : ∀ a, ReportsIn places (next a)) : ReportsIn places (act >>= next) := by
  intro m exit ended
  have firstReported := first m
  rw [outcome_bind] at ended
  rcases result : outcome act m with ⟨e | a, m'⟩
  · rw [result] at ended firstReported
    cases ended
    exact firstReported _ rfl
  · rw [result] at ended
    exact rest a m' exit ended

theorem fail (fault : RuntimeFault) : ReportsIn places (Eval.fail fault : Eval φ α) := by
  rintro m exit ⟨⟩
  rintro loc ⟨⟩

theorem locate {act : Eval φ α} (inner : ReportsIn places act) {loc : Location}
    (known : places loc) : ReportsIn places (Eval.locate loc act) := by
  intro m exit ended
  rw [Eval.outcome_locate] at ended
  cases result : (outcome act m).1 with
  | ok a =>
    rw [result] at ended
    cases ended
  | error e =>
    rw [result] at ended
    cases ended
    exact (inner m e result).located known

theorem pass {body : Eval φ Value} (inner : ReportsIn places body) :
    ReportsIn places (Eval.pass body) := by
  intro m exit ended
  rw [Eval.outcome_pass] at ended
  cases result : (outcome body m).1 with
  | ok v =>
    rw [result] at ended
    cases ended
  | error e =>
    have reported := inner m e result
    rw [result] at ended
    cases e <;> cases ended <;> exact reported

theorem indexSet (owner key value : Value) :
    ReportsIn places (Eval.indexSet owner key value : Eval φ Unit) := by
  intro m exit ended
  rw [Eval.outcome_indexSet] at ended
  cases written : m.world.heap.indexSet owner key value with
  | ok heap =>
    rw [written] at ended
    cases ended
  | error fault =>
    rw [written] at ended
    cases ended
    rintro loc ⟨⟩

theorem call {host : Host φ} (unlocated : host.Unlocated) (function : φ) (args : List Value) :
    ReportsIn places (Eval.ofAction (host function args)) := by
  intro m exit ended
  rw [Eval.outcome_ofAction] at ended
  cases result : (outcome (host function args) m).1 with
  | ok v =>
    rw [result] at ended
    cases ended
  | error stop =>
    rw [result] at ended
    cases ended
    cases stop with
    | unfinished => trivial
    | failed e =>
      intro loc reported
      rw [unlocated function args m e result] at reported
      cases reported

end ReportsIn

/-- Evaluation with all locations moved into a set reports in that set. -/
theorem Host.Unlocated.congruence {host : Host φ} (unlocated : host.Unlocated)
    {places : Location → Prop} {f : Location → Location} (into : ∀ loc, places (f loc)) :
    Congruence host host f (fun _ {_} _ act => ReportsIn places act) where
  pure _ _ _ _ _ ended := by cases ended
  bind := ReportsIn.bind
  observe _ _ _ _ _ _ ended := by cases ended
  fail _ _ fault _ := .fail fault
  badTarget := .fail _
  unfinished _ _ _ _ ended := by
    cases ended
    trivial
  returned _ _ _ _ _ ended := by
    cases ended
    trivial
  breakLoop _ _ _ ended := by
    cases ended
    trivial
  continueLoop _ _ _ ended := by
    cases ended
    trivial
  locate loc inner := inner.locate (into loc)
  pass inner := inner.pass
  withScope name inner m exit ended := by
    rw [Eval.outcome_withScope] at ended
    exact inner (m.pushScope name) exit ended
  assign _ _ _ _ _ ended := by cases ended
  newList _ _ _ _ ended := by cases ended
  newMap _ _ _ _ ended := by cases ended
  indexSet _ := ReportsIn.indexSet
  unknownCall _ _ _ _ ended := by cases ended
  call _ := ReportsIn.call unlocated

open Classical in
/-- A tree whose locations are all in a set reports its failures there. -/
theorem Node.reportsIn {host : Host φ} (unlocated : host.Unlocated) (budget : Nat) {n : Node}
    {places : Location → Prop}
    (inside : ∀ m : Node, m.Within n → places m.loc ∧ ∀ x ∈ m.names, places x.loc) :
    ReportsIn places (n.eval host budget) := by
  -- Moving what is outside the set to the node itself changes nothing in the tree.
  let f : Location → Location := fun loc => if places loc then loc else n.loc
  have stays : ∀ loc, places loc → f loc = loc := fun loc known => if_pos known
  have into : ∀ loc, places (f loc) := by
    intro loc
    by_cases known : places loc
    · rw [stays loc known]
      exact known
    · have moved : f loc = n.loc := if_neg known
      rw [moved]
      exact (inside n (.self n)).1
  have fixed : n.FixedBy f := by
    intro m within
    obtain ⟨here, names⟩ := inside m within
    refine ⟨stays m.loc here, ?_⟩
    intro x member
    rw [Located.mapLoc, stays x.loc (names x member)]
  have reports := (unlocated.congruence into).eval budget n n.sound_anywhere
  rw [Node.mapLoc_eq_self n fixed] at reports
  exact reports

/-- Evaluating a node locates every failure. -/
theorem Node.exists_locate (host : Host φ) (budget : Nat) (n : Node) :
    ∃ act, n.eval host budget = Eval.locate n.loc act := by
  rw [Node.eval.eq_def]
  exact ⟨_, rfl⟩

theorem Node.exists_loc {host : Host φ} {budget : Nat} {n : Node} {m : Machine φ}
    {e : RuntimeError}
    (failed : (outcome (n.eval host budget) m).1 = .error (.stopped (.failed e))) :
    ∃ loc, e.loc = some loc := by
  obtain ⟨act, located⟩ := n.exists_locate host budget
  rw [located, Eval.outcome_locate] at failed
  rcases result : (outcome act m).1 with (_ | _ | _ | (e' | _)) | v
  all_goals
    rw [result] at failed
    cases failed
  exact ⟨_, rfl⟩

end Polyglot
