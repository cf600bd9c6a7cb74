import Polyglot.Proofs.Eval.Congruence

/-!
# What every run preserves

A relation between machines that holds across each single step of evaluation, and across every
function of the host, holds across whole runs: from the machine before to the machine after,
however the run ends. No tree is excluded.
-/

namespace Polyglot

variable {φ ε α β : Type}

/-- Every run of an action relates the machine it starts on to the one it leaves. -/
def Respects (R : Machine φ → Machine φ → Prop) (act : ExceptT ε (StateM (Machine φ)) α) : Prop :=
  ∀ m, R m (outcome act m).2

/-- A relation that holds across each step of evaluation. A scope that was entered is left again
before the relation has to hold. -/
structure Invariant (host : Host φ) (R : Machine φ → Machine φ → Prop) : Prop where
  refl : ∀ m, R m m
  trans : ∀ {m₁ m₂ m₃}, R m₁ m₂ → R m₂ m₃ → R m₁ m₃
  assign : ∀ m name value, R m (m.assign name value)
  newList : ∀ m items,
    R m { m with world := { m.world with heap := (m.world.heap.newList items).2 } }
  newMap : ∀ m entries,
    R m { m with world := { m.world with heap := (m.world.heap.newMap entries).2 } }
  indexSet : ∀ {m m'} owner key value, Eval.indexSetIn m owner key value = .ok m' → R m m'
  report : ∀ m event, R m (m.report event)
  scope : ∀ {m m'} name, R (m.pushScope name) m' → R m (m'.truncate m.self.scopes.depth)
  call : ∀ function args, Respects R (host function args)

namespace Invariant

variable {host : Host φ} {R : Machine φ → Machine φ → Prop} (h : Invariant host R)

include h

theorem bind {act : ExceptT ε (StateM (Machine φ)) α}
    {next : α → ExceptT ε (StateM (Machine φ)) β} (first : Respects R act)
    (rest : ∀ a, Respects R (next a)) : Respects R (act >>= next) := by
  intro m
  have step := first m
  rw [outcome_bind]
  rcases result : outcome act m with ⟨e | a, m'⟩
  · rw [result] at step
    exact step
  · rw [result] at step
    exact h.trans step (rest a m')

theorem writeIndex (owner key value : Value) :
    Respects R (Eval.indexSet owner key value : Eval φ Unit) := by
  intro m
  rw [Eval.indexSet, outcome_bind, outcome_get]
  simp only [outcome_bind, Eval.outcome_ofResult]
  cases written : Eval.indexSetIn m owner key value with
  | error fault => exact h.refl m
  | ok m' => exact h.indexSet owner key value written

/-- Being respected is itself respected by every step; the second action plays no part. -/
theorem congruence : Congruence host host id (fun _ {_} act _ => Respects R act) where
  pure _ _ _ := h.refl
  bind := h.bind
  observe _ _ _ _ := h.refl
  fail _ _ _ _ := h.refl
  badTarget := h.refl
  unfinished _ _ := h.refl
  returned _ _ _ := h.refl
  breakLoop _ := h.refl
  continueLoop _ := h.refl
  locate _ inner m := by
    rw [Eval.outcome_locate]
    exact inner m
  pass inner m := by
    rw [Eval.outcome_pass]
    exact inner m
  withScope name inner m := by
    rw [Eval.outcome_withScope]
    exact h.scope name (inner (m.pushScope name))
  assign _ name v m := h.assign m name v
  newList _ items m := h.newList m items
  newMap _ entries m := h.newMap m entries
  indexSet _ := h.writeIndex
  unknownCall _ _ m := h.report m _
  call _ function args m := by
    rw [Eval.outcome_ofAction]
    exact h.call function args m

/-! The steps of a counting loop; the same action stands on both sides of the relation. -/

theorem boundOf {bound : Eval φ Value} (loc : Location) (inner : Respects R bound) :
    Respects R (Eval.boundOf loc bound) :=
  @Steps.boundOf _ _ _ h.congruence.steps .anywhere bound bound loc inner

theorem counterOf (name : String) : Respects R (Eval.counterOf name : Eval φ Float) :=
  @Steps.counterOf _ _ _ h.congruence.steps .anywhere name

theorem moveCounter {step : Eval φ Value} (name : String) (direction : Direction)
    (loc : Location) (inner : Respects R step) :
    Respects R (Eval.moveCounter name direction loc step) :=
  @Steps.moveCounter _ _ _ h.congruence.steps .anywhere step step name direction loc inner

theorem repeatWhile {goesOn : Eval φ Bool} {body : Eval φ Value} {advance : Eval φ Unit}
    (test : Respects R goesOn) (inner : Respects R body) (move : Respects R advance)
    (retain : Bool) (fuel count : Nat) (kept : Array Value) :
    Respects R (Eval.repeatWhile goesOn body advance retain fuel count kept) :=
  @Congruence.repeatWhile _ _ _ _ _ h.congruence .anywhere goesOn goesOn body body advance advance
    test inner move retain fuel count kept

theorem loopValue (retain : Bool) (kept : Array Value) :
    Respects R (Eval.loopValue retain kept : Eval φ Value) :=
  @Steps.loopValue _ _ _ h.congruence.steps .anywhere retain kept

/-- What each step preserves, the evaluation of every tree preserves. -/
theorem eval (budget : Nat) (n : Node) : Respects R (n.eval host budget) :=
  h.congruence.eval budget n (Node.sound_anywhere n)

theorem evalBody (budget : Nat) (last : Value) (ns : List Node) :
    Respects R (Node.evalBody host budget last ns) := by
  induction ns generalizing last with
  | nil => exact h.refl
  | cons n ns ih =>
    rw [Node.evalBody]
    exact h.bind (h.eval budget n) ih

theorem evalStatements (budget : Nat) (last : Value) (ns : List Node) :
    Respects R (Program.evalStatements host budget last ns) := by
  induction ns generalizing last with
  | nil => exact h.refl
  | cons n ns ih =>
    refine h.bind (h.eval budget n) fun result => ?_
    split
    · exact ih _
    · exact h.refl
    · exact h.refl
    · exact h.refl
    · exact h.refl

end Invariant

end Polyglot
