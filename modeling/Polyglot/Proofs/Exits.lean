import Polyglot.Proofs.Eval.Congruence
import Polyglot.Proofs.Parsing.Rules

/-!
# Exits of accepted scripts

A loop takes in what its body leaves or continues and passes on everything else; what its header
leaves or continues goes to the loop around it. The parser counts loop bodies in the same way, so
in an accepted script no such exit comes as far as the program, and no assignment meets a target
that it cannot assign to. These are the only internal failures there are.
-/

namespace Polyglot

variable {φ α : Type}

/-- Functions of the host that do not fail internally themselves. -/
def Host.NeverInternal (host : Host φ) : Prop :=
  ∀ function args m e, (outcome (host function args) m).1 = .error (.failed e) →
    e.kind ≠ .internal

/-- The exits that a sound tree may have at a place. -/
def Exit.Allowed (p : Place) : Exit → Prop
  | .breakLoop | .continueLoop => p ≠ .outside
  | .returned _ => True
  | .stopped (.failed e) => p = .anywhere ∨ e.kind ≠ .internal
  | .stopped .unfinished => True

theorem Exit.Allowed.located {p : Place} {exit : Exit} (allowed : exit.Allowed p)
    (loc : Location) : (exit.located loc).Allowed p := by
  rcases exit with _ | _ | _ | (_ | _) <;> exact allowed

/-- What leaves the body of a loop and is not meant for the loop may also leave the loop. -/
theorem Exit.Allowed.pass {p : Place} {result : Except Exit Value} {exit : Exit}
    (allowed : ∀ e, result = .error e → e.Allowed p.body)
    (ended : Eval.Pass.ofResult result = .error exit) : exit.Allowed p := by
  have unknown : p.body = .anywhere → p = .anywhere := by
    cases p <;> simp [Place.body]
  rcases result with (_ | _ | v | (e | _)) | v
  · cases ended
  · cases ended
  · cases ended
    trivial
  · cases ended
    exact (allowed _ rfl).imp_left unknown
  · cases ended
    trivial
  · cases ended

/-- Every run of an action ends with a value or with an exit allowed at the place. -/
def EndsWell (p : Place) (act : Eval φ α) : Prop :=
  ∀ m exit, (outcome act m).1 = .error exit → exit.Allowed p

theorem EndsWell.bind {β : Type} {p : Place} {act : Eval φ α} {next : α → Eval φ β}
    (first : EndsWell p act) (rest : ∀ a, EndsWell p (next a)) : EndsWell p (act >>= next) := by
  intro m exit ended
  have firstAllowed := first m
  rw [outcome_bind] at ended
  rcases result : outcome act m with ⟨e | a, m'⟩ <;> rw [result] at ended firstAllowed
  · cases ended
    exact firstAllowed _ rfl
  · exact rest a m' exit ended

theorem endsWell_indexSet (p : Place) (owner key value : Value) :
    EndsWell p (Eval.indexSet owner key value : Eval φ Unit) := by
  intro m exit ended
  rw [Eval.outcome_indexSet] at ended
  cases written : m.world.heap.indexSet owner key value with
  | error fault =>
    rw [written] at ended
    cases ended
    exact .inr (FaultKind.ne_of_ofValues (Heap.kind_of_indexSet written) rfl)
  | ok heap =>
    rw [written] at ended
    cases ended

theorem Host.NeverInternal.congruence {host : Host φ} (regular : host.NeverInternal) :
    Congruence host host id (fun p {_} act _ => EndsWell p act) where
  pure _ _ _ _ _ ended := by cases ended
  bind := EndsWell.bind
  observe _ _ _ _ _ _ ended := by cases ended
  fail _ _ _ proper _ _ ended := by
    cases ended
    exact .inr proper
  badTarget _ _ ended := by
    cases ended
    exact .inl rfl
  unfinished _ _ _ _ ended := by
    cases ended
    trivial
  returned _ _ _ _ _ ended := by
    cases ended
    trivial
  breakLoop inside _ _ ended := by
    cases ended
    exact inside
  continueLoop inside _ _ ended := by
    cases ended
    exact inside
  locate {_ _ act _} loc inner m exit ended := by
    rw [Eval.outcome_locate] at ended
    cases result : (outcome act m).1 with
    | ok a =>
      rw [result] at ended
      cases ended
    | error e =>
      rw [result] at ended
      cases ended
      exact (inner m e result).located loc
  pass inner m exit ended := by
    rw [Eval.outcome_pass] at ended
    exact Exit.Allowed.pass (inner m) ended
  withScope name inner m exit ended := by
    rw [Eval.outcome_withScope] at ended
    exact inner (m.pushScope name) exit ended
  assign _ _ _ _ _ ended := by cases ended
  newList _ _ _ _ ended := by cases ended
  newMap _ _ _ _ ended := by cases ended
  indexSet := endsWell_indexSet
  unknownCall _ _ _ _ ended := by cases ended
  call _ function args m exit ended := by
    rw [Eval.outcome_ofAction] at ended
    cases result : (outcome (host function args) m).1 with
    | ok v =>
      rw [result] at ended
      cases ended
    | error stop =>
      rw [result] at ended
      cases ended
      cases stop with
      | failed e => exact .inr (regular function args m e result)
      | unfinished => trivial

/-- A sound tree ends with a value or with an exit allowed where it stands. -/
theorem Node.Sound.endsWell {host : Host φ} (regular : host.NeverInternal) (budget : Nat)
    {p : Place} {n : Node} (sound : n.Sound p) : EndsWell p (n.eval host budget) :=
  regular.congruence.eval budget n sound

theorem kind_of_evalStatements {host : Host φ} (regular : host.NeverInternal) (budget : Nat)
    {ns : List Node} (sound : Node.AllSound .outside ns) (last : Value) (m : Machine φ)
    {e : RuntimeError}
    (ended : (outcome (Program.evalStatements host budget last ns) m).1 = .error (.failed e)) :
    e.kind ≠ .internal := by
  induction ns generalizing last m with
  | nil => cases ended
  | cons n ns ih =>
    have allowed := sound.1.endsWell regular budget m
    rw [outcome_evalStatements_cons] at ended
    rcases result : outcome (n.eval host budget) m with ⟨(_ | _ | v | reason) | v, m'⟩ <;>
      rw [result] at ended allowed
    · exact absurd rfl (allowed _ rfl)
    · exact absurd rfl (allowed _ rfl)
    · cases ended
    · cases ended
      exact (allowed _ rfl).resolve_left (by simp)
    · exact ih sound.2 v m' ended

/-- An accepted script never fails internally, whatever the interpreter, as long as the functions
of the host do not: no statement of it leaves or continues a loop that is not there, and nothing
in it is assigned to but names and indexed values. -/
theorem parsed_never_internal {languages : Languages} {source name : String} {p : Program}
    (accepted : Program.parse languages source name = .ok p) {host : Host φ}
    (regular : host.NeverInternal) (budget : Nat) :
    (∀ m e, (outcome (executeProgram host budget p) m).1 = .error (.failed e) →
      e.kind ≠ .internal) ∧
    (∀ n ∈ p.body, ∀ m, (outcome (n.eval host budget) m).1 ≠ .error .breakLoop ∧
      (outcome (n.eval host budget) m).1 ≠ .error .continueLoop) ∧
    Node.AllSound .outside p.body := by
  have sound := Program.sound_of_parse accepted
  refine ⟨fun m e ended => ?_, fun n member m => ?_, sound⟩
  · rw [outcome_executeProgram] at ended
    exact kind_of_evalStatements regular budget sound _ _ ended
  · have allowed := (Node.allSound_iff.1 sound n member).endsWell regular budget m
    exact ⟨fun ended => absurd rfl (allowed _ ended), fun ended => absurd rfl (allowed _ ended)⟩

/-- A loop that is left from its body, and whose header is read outside of it, is accepted. -/
theorem parsed_never_internal_leaving : ∃ p,
    Program.parse .builtin "while true { x = [1]; x[0] = 2; break }" Program.anonymous = .ok p ∧
    Host.echo.NeverInternal ∧
    ∀ m e, (outcome (executeProgram Host.echo 1 p) m).1 = .error (.failed e) →
      e.kind ≠ .internal := by
  have regular : Host.echo.NeverInternal := fun _ _ _ _ ended => by cases ended
  obtain ⟨p, accepted⟩ : ∃ p, Program.parse .builtin "while true { x = [1]; x[0] = 2; break }"
      Program.anonymous = .ok p := exists_of_isOk (by decide +kernel)
  exact ⟨p, accepted, regular, (parsed_never_internal accepted regular 1).1⟩

end Polyglot
