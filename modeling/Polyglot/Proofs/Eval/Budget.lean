import Polyglot.Proofs.Eval.Congruence

/-!
# More iterations

The loops of a run may make as many iterations as they are given. A run that did not stop for want
of iterations goes the same way when it is given more, so the number decides only whether a run
comes to its end, never what it does.
-/

namespace Polyglot

variable {φ α β : Type}

namespace Eval

/-- Wherever the first action does not stop for want of iterations, the second does the same. -/
def Extends (act act' : Eval φ α) : Prop :=
  ∀ m, (outcome act m).1 ≠ .error (.stopped .unfinished) → outcome act' m = outcome act m

theorem Extends.refl (act : Eval φ α) : Extends act act :=
  fun _ _ => rfl

theorem Extends.bind {act act' : Eval φ α} {next next' : α → Eval φ β}
    (first : Extends act act') (rest : ∀ a, Extends (next a) (next' a)) :
    Extends (act >>= next) (act' >>= next') := by
  intro m finished
  have same := first m
  rw [outcome_bind] at finished ⊢
  rw [outcome_bind]
  rcases result : outcome act m with ⟨exit | a, m'⟩ <;> rw [result] at finished same
  · have inside : (Except.error exit : Except Exit α) ≠ .error (.stopped .unfinished) := by
      rintro ⟨⟩
      exact finished rfl
    rw [same inside]
  · rw [same (by simp)]
    exact rest a m' finished

theorem Extends.locate {act act' : Eval φ α} (loc : Location) (inner : Extends act act') :
    Extends (Eval.locate loc act) (Eval.locate loc act') := by
  intro m finished
  rw [outcome_locate] at finished
  have inside : (outcome act m).1 ≠ .error (.stopped .unfinished) := by
    intro stopped
    rw [stopped] at finished
    exact finished rfl
  rw [outcome_locate, outcome_locate, inner m inside]

theorem Extends.pass {body body' : Eval φ Value} (inner : Extends body body') :
    Extends (Eval.pass body) (Eval.pass body') := by
  intro m finished
  rw [outcome_pass] at finished
  have inside : (outcome body m).1 ≠ .error (.stopped .unfinished) := by
    intro stopped
    rw [stopped] at finished
    exact finished rfl
  rw [outcome_pass, outcome_pass, inner m inside]

theorem Extends.withScope {act act' : Eval φ α} (name : String) (inner : Extends act act') :
    Extends (Eval.withScope name act) (Eval.withScope name act') := by
  intro m finished
  rw [outcome_withScope] at finished
  rw [outcome_withScope, outcome_withScope, inner _ finished]

/-- Every step goes on as before where it finished before. -/
theorem Extends.congruence (host : Host φ) :
    Congruence host host id (fun _ {_} act act' => Extends act act') where
  pure _ _ _ := .refl _
  bind := .bind
  observe _ _ _ _ := .refl _
  fail _ _ _ _ := .refl _
  badTarget := .refl _
  unfinished _ _ := .refl _
  returned _ _ _ := .refl _
  breakLoop _ := .refl _
  continueLoop _ := .refl _
  locate loc inner := inner.locate loc
  pass := .pass
  withScope name inner := inner.withScope name
  assign _ _ _ := .refl _
  newList _ _ := .refl _
  newMap _ _ := .refl _
  indexSet _ _ _ _ := .refl _
  unknownCall _ _ := .refl _
  call _ _ _ := .refl _

/-- A loop that comes to its end in `fuel` iterations does the same if it may make more. -/
theorem Extends.repeatWhile (host : Host φ) {goesOn goesOn' : Eval φ Bool}
    {body body' : Eval φ Value} {advance advance' : Eval φ Unit} (test : Extends goesOn goesOn')
    (inner : Extends body body') (move : Extends advance advance') (retain : Bool) (fuel : Nat) :
    ∀ fuel', fuel ≤ fuel' → ∀ count kept,
      Extends (Eval.repeatWhile goesOn body advance retain fuel count kept)
        (Eval.repeatWhile goesOn' body' advance' retain fuel' count kept) := by
  induction fuel with
  | zero => exact fun _ _ _ _ _ finished => absurd rfl finished
  | succ fuel ih =>
    intro fuel' le count kept
    obtain ⟨more, rfl⟩ : ∃ more, fuel' = more + 1 := ⟨fuel' - 1, by omega⟩
    have rest := ih more (by omega) (count + 1)
    exact (Extends.congruence host).iteration (p := .anywhere) test inner move retain count rest
      kept

end Eval

open Eval

/-- A tree that comes to its end goes the same way if its loops may make more iterations. -/
theorem Node.eval_extends (host : Host φ) {budget budget' : Nat} (more : budget ≤ budget')
    (n : Node) : Extends (n.eval host budget) (n.eval host budget') := by
  have related : LoopCongruence host host id (fun _ {_} act act' => Extends act act')
      budget budget' :=
    { Extends.congruence host with
      loops := fun test inner move retain =>
        Extends.repeatWhile host test inner move retain budget budget' more 0 #[] }
  have extended := related.eval n (Node.sound_anywhere n)
  rwa [Node.mapLoc_id] at extended

theorem Program.evalStatements_extends (host : Host φ) {budget budget' : Nat}
    (more : budget ≤ budget') (ns : List Node) : ∀ last m,
      (outcome (evalStatements host budget last ns) m).1 ≠ .error .unfinished →
      outcome (evalStatements host budget' last ns) m =
        outcome (evalStatements host budget last ns) m := by
  induction ns with
  | nil => exact fun _ _ _ => rfl
  | cons n ns ih =>
    intro last m finished
    have same := n.eval_extends host more m
    rw [outcome_evalStatements_cons] at finished ⊢
    rw [outcome_evalStatements_cons]
    rcases result : outcome (n.eval host budget) m with ⟨exit | v, m'⟩ <;>
      rw [result] at finished same
    · have inside : (Except.error exit : Except Exit Value) ≠ .error (.stopped .unfinished) := by
        rintro ⟨⟩
        exact finished rfl
      rw [same inside]
      cases exit <;> rfl
    · rw [same (by simp)]
      exact ih v m' finished

/-- A program that comes to its end goes the same way if its loops may make more iterations. -/
theorem executeProgram_extends (host : Host φ) {budget budget' : Nat} (more : budget ≤ budget')
    (p : Program) (m : Machine φ)
    (finished : (outcome (executeProgram host budget p) m).1 ≠ .error .unfinished) :
    outcome (executeProgram host budget' p) m = outcome (executeProgram host budget p) m := by
  rw [outcome_executeProgram] at finished
  rw [outcome_executeProgram, outcome_executeProgram,
    Program.evalStatements_extends host more p.body .null _ finished]

end Polyglot
