import Polyglot.Program.Node
import Polyglot.Proofs.Lexing.Places

/-!
# The parts of a node

A node has names and nodes as its parts, in the order in which they are written. A tree is placed
in a text if every node of it has a sound location that holds those of its parts, one after the
other.
-/

namespace Polyglot

/-- The names that a loop binds. -/
def LoopTarget.names : LoopTarget → List (Located String)
  | single name => [name]
  | pair first second => [first, second]

namespace Node

/-- The names that are parts of a node, which stand before the nodes in it. -/
def names : Node → List (Located String)
  | call _ callee _ => [callee]
  | countLoop _ counter _ _ _ _ _ _ => [counter]
  | eachLoop _ target _ _ _ => target.names
  | _ => []

/-- The nodes that are parts of a node. -/
def children : Node → List Node
  | constant _ _ | name _ _ | breakLoop _ | continueLoop _ => []
  | block _ body => body
  | statement _ value => [value]
  | assign _ target value => [target, value]
  | call _ _ args => args
  | binary _ left _ right | logical _ left _ right => [left, right]
  | unary _ _ operand => [operand]
  | conditional _ condition thenBranch elseBranch => condition :: thenBranch :: elseBranch.toList
  | index _ owner key => [owner, key]
  | object _ properties => properties.flatMap fun p => [p.1, p.2]
  | array _ items => items
  | whileLoop _ condition body _ => [condition, body]
  | countLoop _ _ start bound _ step body _ => [start, bound, step, body]
  | eachLoop _ _ collection body _ => [collection, body]
  | returnValue _ value => value.toList

/-- Where the parts of a node stand. -/
def parts (n : Node) : List Location :=
  n.names.map Located.loc ++ n.children.map loc

@[simp] theorem names_relocate (l : Location) (n : Node) : (n.relocate l).names = n.names := by
  cases n <;> rfl

@[simp] theorem children_relocate (l : Location) (n : Node) :
    (n.relocate l).children = n.children := by
  cases n <;> rfl

@[simp] theorem parts_relocate (l : Location) (n : Node) : (n.relocate l).parts = n.parts := by
  simp [parts]

/-- The first node is the second one or a node in it. -/
inductive Within : Node → Node → Prop
  | self (n : Node) : Within n n
  | child {n inner outer : Node} (member : inner ∈ outer.children) (within : Within n inner) :
    Within n outer

end Node

/-! ## Rows of locations -/

/-- Sound locations one after the other, from the first offset to the last one. -/
def Row (source : String) (first : Nat) : List Location → Nat → Prop
  | [], last => first ≤ last
  | l :: ls, last => first ≤ l.span.start ∧ l.Sound source ∧ Row source l.span.stop ls last

namespace Row

variable {source : String} {first last : Nat} {ls : List Location}

@[simp] theorem nil_iff : Row source first [] last ↔ first ≤ last := Iff.rfl

@[simp] theorem cons_iff {l : Location} : Row source first (l :: ls) last ↔
    first ≤ l.span.start ∧ l.Sound source ∧ Row source l.span.stop ls last := Iff.rfl

theorem le (row : Row source first ls last) : first ≤ last := by
  induction ls generalizing first with
  | nil => exact row
  | cons l ls ih =>
    obtain ⟨start, sound, rest⟩ := row
    have stop := ih rest
    have ordered := sound.ordered
    omega

theorem mono {first' last' : Nat} (row : Row source first ls last) (earlier : first' ≤ first)
    (later : last ≤ last') : Row source first' ls last' := by
  induction ls generalizing first first' with
  | nil =>
    simp only [nil_iff] at row ⊢
    omega
  | cons l ls ih =>
    obtain ⟨start, sound, rest⟩ := row
    exact ⟨by omega, sound, ih rest (Nat.le_refl _)⟩

theorem append {ls' : List Location} {mid : Nat} (row : Row source first ls mid)
    (row' : Row source mid ls' last) : Row source first (ls ++ ls') last := by
  induction ls generalizing first with
  | nil => exact row'.mono row (Nat.le_refl _)
  | cons l ls ih =>
    obtain ⟨start, sound, rest⟩ := row
    exact ⟨start, sound, ih rest⟩

theorem sound (row : Row source first ls last) : ∀ l ∈ ls, l.Sound source := by
  induction ls generalizing first with
  | nil => simp
  | cons l ls ih =>
    obtain ⟨-, sound, rest⟩ := row
    simpa using ⟨sound, ih rest⟩

theorem inside (row : Row source first ls last) : ∀ l ∈ ls, l.span.Inside ⟨first, last⟩ := by
  induction ls generalizing first with
  | nil => simp
  | cons l ls ih =>
    obtain ⟨start, sound, rest⟩ := row
    intro l' member
    rcases List.mem_cons.1 member with rfl | later
    · exact ⟨start, rest.le⟩
    · obtain ⟨above, below⟩ := ih rest l' later
      have ordered := sound.ordered
      exact ⟨by simp at above ⊢; omega, below⟩

theorem pairwise (row : Row source first ls last) :
    ls.Pairwise fun l l' => l.span.Before l'.span := by
  induction ls generalizing first with
  | nil => exact .nil
  | cons l ls ih =>
    obtain ⟨-, -, rest⟩ := row
    refine .cons ?_ (ih rest)
    intro l' later
    exact (rest.inside l' later).1

end Row

/-! ## Placed trees -/

namespace Node

/-- Every node of the tree has a sound location that holds those of its parts, in their order. -/
inductive Placed (source : String) : Node → Prop
  | intro {n : Node} (sound : n.loc.Sound source)
    (parts : Row source n.loc.span.start n.parts n.loc.span.stop)
    (children : ∀ child ∈ n.children, Placed source child) : Placed source n

namespace Placed

variable {source : String} {n m : Node}

theorem sound (placed : n.Placed source) : n.loc.Sound source := by
  cases placed
  assumption

theorem parts (placed : n.Placed source) :
    Row source n.loc.span.start n.parts n.loc.span.stop := by
  cases placed
  assumption

theorem child (placed : n.Placed source) (member : m ∈ n.children) : m.Placed source := by
  cases placed with
  | intro _ _ children => exact children m member

/-- What holds of a placed tree holds of every node of it. -/
theorem within (placed : m.Placed source) (within : n.Within m) : n.Placed source := by
  induction within with
  | self => exact placed
  | child member _ ih => exact ih (placed.child member)

theorem inside_child (placed : n.Placed source) (member : m ∈ n.children) :
    m.loc.span.Inside n.loc.span := by
  refine placed.parts.inside m.loc ?_
  exact List.mem_append_right _ (List.mem_map_of_mem member)

/-- A node without parts is placed if its location is sound. -/
theorem leaf (sound : n.loc.Sound source) (alone : n.parts = []) : n.Placed source := by
  have none : n.children = [] := by
    simp only [Node.parts, List.append_eq_nil_iff, List.map_eq_nil_iff] at alone
    exact alone.2
  refine .intro sound ?_ ?_
  · rw [alone]
    exact sound.ordered
  · simp [none]

/-- A node with wider bounds is still placed. -/
theorem relocate {l : Location} (placed : n.Placed source) (sound : l.Sound source)
    (wider : n.loc.span.Inside l.span) : (n.relocate l).Placed source := by
  refine .intro ?_ ?_ ?_
  · simpa using sound
  · rw [loc_relocate, parts_relocate]
    exact placed.parts.mono wider.1 wider.2
  · rw [children_relocate]
    intro child member
    exact placed.child member

end Placed

end Node

end Polyglot
