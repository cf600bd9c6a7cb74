import Polyglot.Program.Grammar

/-!
# Sound trees

A tree is sound at a place if whatever it assigns to can be assigned to and every node that
leaves or continues a loop stands in the body of one. The header of a loop is not part of its
body: a condition, a bound or a step that leaves a loop leaves the one around it.
-/

namespace Polyglot

/-- Where a node stands, as far as that is known. -/
inductive Place
  /-- In a tree of which nothing is known. -/
  | anywhere
  /-- In the body of a loop. -/
  | inLoop
  /-- Outside the bodies of all loops. -/
  | outside
deriving DecidableEq

/-- The place of the body of a loop. -/
def Place.body : Place → Place
  | anywhere => anywhere
  | inLoop | outside => inLoop

namespace Node

mutual

/-- The tree assigns only to names and indexed values, and leaves and continues only loops that
are there. Nothing is asked of a tree of which nothing is known. -/
def Sound (p : Place) : Node → Prop
  | constant _ _ | name _ _ => True
  | block _ body => AllSound p body
  | statement _ value => value.Sound p
  | assign _ target value =>
    (Grammar.isTarget target = true ∨ p = .anywhere) ∧ target.Sound p ∧ value.Sound p
  | call _ _ args => AllSound p args
  | binary _ left _ right | logical _ left _ right => left.Sound p ∧ right.Sound p
  | unary _ _ operand => operand.Sound p
  | conditional _ condition thenBranch none => condition.Sound p ∧ thenBranch.Sound p
  | conditional _ condition thenBranch (some elseBranch) =>
    condition.Sound p ∧ thenBranch.Sound p ∧ elseBranch.Sound p
  | index _ owner key => owner.Sound p ∧ key.Sound p
  | object _ properties => AllSoundPairs p properties
  | array _ items => AllSound p items
  | whileLoop _ condition body _ => condition.Sound p ∧ body.Sound p.body
  | countLoop _ _ start bound _ step body _ =>
    start.Sound p ∧ bound.Sound p ∧ step.Sound p ∧ body.Sound p.body
  | eachLoop _ _ collection body _ => collection.Sound p ∧ body.Sound p.body
  | breakLoop _ | continueLoop _ => p ≠ .outside
  | returnValue _ none => True
  | returnValue _ (some value) => value.Sound p

/-- All trees of a list are sound. -/
def AllSound (p : Place) : List Node → Prop
  | [] => True
  | n :: ns => n.Sound p ∧ AllSound p ns

/-- All keys and values of a list are sound. -/
def AllSoundPairs (p : Place) : List (Node × Node) → Prop
  | [] => True
  | (key, value) :: ps => key.Sound p ∧ value.Sound p ∧ AllSoundPairs p ps

end

theorem allSound_iff {p : Place} {ns : List Node} : AllSound p ns ↔ ∀ n ∈ ns, n.Sound p := by
  induction ns with
  | nil => simp [AllSound]
  | cons n ns ih => simp [AllSound, ih]

@[simp] theorem sound_relocate {p : Place} (l : Location) (n : Node) :
    (n.relocate l).Sound p ↔ n.Sound p := by
  cases n with
  | conditional _ _ _ elseBranch => cases elseBranch <;> simp [relocate, Sound]
  | returnValue _ value => cases value <;> simp [relocate, Sound]
  | _ => simp [relocate, Sound]

mutual

/-- Where nothing is known, every tree is sound. -/
theorem sound_anywhere : ∀ n : Node, n.Sound .anywhere
  | constant _ _ | name _ _ | returnValue _ none => trivial
  | block _ body => allSound_anywhere body
  | statement _ value => sound_anywhere value
  | assign _ target value => ⟨.inr rfl, sound_anywhere target, sound_anywhere value⟩
  | call _ _ args => allSound_anywhere args
  | binary _ left _ right => ⟨sound_anywhere left, sound_anywhere right⟩
  | logical _ left _ right => ⟨sound_anywhere left, sound_anywhere right⟩
  | unary _ _ operand => sound_anywhere operand
  | conditional _ condition thenBranch none =>
    ⟨sound_anywhere condition, sound_anywhere thenBranch⟩
  | conditional _ condition thenBranch (some elseBranch) =>
    ⟨sound_anywhere condition, sound_anywhere thenBranch, sound_anywhere elseBranch⟩
  | index _ owner key => ⟨sound_anywhere owner, sound_anywhere key⟩
  | object _ properties => allSoundPairs_anywhere properties
  | array _ items => allSound_anywhere items
  | whileLoop _ condition body _ => ⟨sound_anywhere condition, sound_anywhere body⟩
  | countLoop _ _ start bound _ step body _ =>
    ⟨sound_anywhere start, sound_anywhere bound, sound_anywhere step, sound_anywhere body⟩
  | eachLoop _ _ collection body _ => ⟨sound_anywhere collection, sound_anywhere body⟩
  | breakLoop _ | continueLoop _ => by simp [Sound]
  | returnValue _ (some value) => sound_anywhere value

theorem allSound_anywhere : ∀ ns : List Node, AllSound .anywhere ns
  | [] => trivial
  | n :: ns => ⟨sound_anywhere n, allSound_anywhere ns⟩

theorem allSoundPairs_anywhere : ∀ ps : List (Node × Node), AllSoundPairs .anywhere ps
  | [] => trivial
  | (key, value) :: ps => ⟨sound_anywhere key, sound_anywhere value, allSoundPairs_anywhere ps⟩

end

end Node

end Polyglot
