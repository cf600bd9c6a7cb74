import Polyglot.Proofs.Parsing.Completeness
import Polyglot.Proofs.Parsing.Shape

/-!
# The trees of scripts

Reading English scripts gives exactly the well-formed trees: whatever is accepted has a
well-formed body, and every well-formed body is, but for locations, that of some script.
-/

namespace Polyglot

/-- A body is, but for locations, that of some English script exactly if all its statements are
well-formed. -/
theorem parsed_iff_wellFormed {languages : Languages} (standard : languages.standard = .english)
    (body : List Node) :
    (∃ source p, (Reading.ofSource languages source).dictionary = .english ∧
      Program.parse languages source = .ok p ∧ p.body.map Node.erase = body.map Node.erase) ↔
    ∀ n ∈ body, n.WellFormed .statement false := by
  constructor
  · rintro ⟨source, p, english, accepted, same⟩
    have formed := Node.allWellFormed_iff.2 (Program.wellFormed_of_parse english accepted)
    rw [← Node.allWellFormed_mapLoc fun _ => default, Node.mapLocAll_eq_map] at formed
    rw [← Node.allWellFormed_iff, ← Node.allWellFormed_mapLoc fun _ => default,
      Node.mapLocAll_eq_map]
    exact same ▸ formed
  · exact Program.exists_parse standard

/-- A loop over pairs whose body, no block, is a loop that is left at once. -/
def nestedLoops (retain : Bool) : Node :=
  .eachLoop default (.pair ⟨"a", default⟩ ⟨"b", default⟩) (.array default [])
    (.whileLoop default (.name default "a")
      (.block default [.statement default (.breakLoop default)]) retain) true

/-- The inner loop can be written if it keeps its values, and cannot if it drops them. -/
theorem parsed_iff_wellFormed_nestedLoops :
    Languages.builtin.standard = .english ∧
    (∃ source p, (Reading.ofSource .builtin source).dictionary = .english ∧
      Program.parse .builtin source = .ok p ∧
      p.body.map Node.erase = [nestedLoops true].map Node.erase) ∧
    ¬ ∃ source p, (Reading.ofSource .builtin source).dictionary = .english ∧
      Program.parse .builtin source = .ok p ∧
      p.body.map Node.erase = [nestedLoops false].map Node.erase := by
  have standard : Languages.builtin.standard = .english := rfl
  have named : IsName "a" ∧ IsName "b" := by
    refine ⟨⟨by decide, fun k => ?_⟩, ⟨by decide, fun k => ?_⟩⟩ <;> cases k <;> decide
  refine ⟨standard, (parsed_iff_wellFormed standard _).2 ?_, fun written => ?_⟩
  · simp [nestedLoops, Node.WellFormed, Node.AllWellFormed, LoopTarget.IsNamed, named]
  · have formed := (parsed_iff_wellFormed standard _).1 written
    simp [nestedLoops, Node.WellFormed] at formed

end Polyglot
