import Polyglot.Program.Grammar
import Polyglot.Proofs.Program.Parts

/-!
# Moving trees

Locations say where the parts of a tree were read; they are no part of what it means. `mapLoc`
changes every location of a tree, those of the names in calls and loop headers included, and
`erase` forgets them all. A tree stays the same if none of its own locations changes.
-/

namespace Polyglot

/-- The same item read elsewhere. -/
def Located.mapLoc {α : Type} (f : Location → Location) (x : Located α) : Located α :=
  ⟨x.item, f x.loc⟩

/-- The same names read elsewhere. -/
def LoopTarget.mapLoc (f : Location → Location) : LoopTarget → LoopTarget
  | single name => single (name.mapLoc f)
  | pair first second => pair (first.mapLoc f) (second.mapLoc f)

namespace Node

mutual

/-- The same tree with every location changed. -/
def mapLoc (f : Location → Location) : Node → Node
  | constant l value => constant (f l) value
  | name l s => name (f l) s
  | block l body => block (f l) (mapLocAll f body)
  | statement l value => statement (f l) (value.mapLoc f)
  | assign l target value => assign (f l) (target.mapLoc f) (value.mapLoc f)
  | call l callee args => call (f l) (callee.mapLoc f) (mapLocAll f args)
  | binary l left op right => binary (f l) (left.mapLoc f) op (right.mapLoc f)
  | unary l op operand => unary (f l) op (operand.mapLoc f)
  | logical l left op right => logical (f l) (left.mapLoc f) op (right.mapLoc f)
  | conditional l condition thenBranch none =>
    conditional (f l) (condition.mapLoc f) (thenBranch.mapLoc f) none
  | conditional l condition thenBranch (some elseBranch) =>
    conditional (f l) (condition.mapLoc f) (thenBranch.mapLoc f) (some (elseBranch.mapLoc f))
  | index l owner key => index (f l) (owner.mapLoc f) (key.mapLoc f)
  | object l properties => object (f l) (mapLocPairs f properties)
  | array l items => array (f l) (mapLocAll f items)
  | whileLoop l condition body retain =>
    whileLoop (f l) (condition.mapLoc f) (body.mapLoc f) retain
  | countLoop l counter start bound direction step body retain =>
    countLoop (f l) (counter.mapLoc f) (start.mapLoc f) (bound.mapLoc f) direction
      (step.mapLoc f) (body.mapLoc f) retain
  | eachLoop l target collection body retain =>
    eachLoop (f l) (target.mapLoc f) (collection.mapLoc f) (body.mapLoc f) retain
  | breakLoop l => breakLoop (f l)
  | continueLoop l => continueLoop (f l)
  | returnValue l none => returnValue (f l) none
  | returnValue l (some value) => returnValue (f l) (some (value.mapLoc f))

/-- The same trees with every location changed. -/
def mapLocAll (f : Location → Location) : List Node → List Node
  | [] => []
  | n :: ns => n.mapLoc f :: mapLocAll f ns

/-- The same keys and values with every location changed. -/
def mapLocPairs (f : Location → Location) : List (Node × Node) → List (Node × Node)
  | [] => []
  | (key, value) :: ps => (key.mapLoc f, value.mapLoc f) :: mapLocPairs f ps

end

/-- The tree without its locations. -/
def erase (n : Node) : Node :=
  n.mapLoc fun _ => default

theorem mapLocAll_eq_map (f : Location → Location) (ns : List Node) :
    mapLocAll f ns = ns.map (mapLoc f) := by
  induction ns with
  | nil => rfl
  | cons n ns ih => rw [mapLocAll, ih, List.map_cons]

@[simp] theorem loc_mapLoc (f : Location → Location) (n : Node) : (n.mapLoc f).loc = f n.loc := by
  cases n with
  | conditional _ _ _ elseBranch => cases elseBranch <;> rfl
  | returnValue _ value => cases value <;> rfl
  | _ => rfl

theorem isTarget_mapLoc (f : Location → Location) (n : Node) :
    Grammar.isTarget (n.mapLoc f) = Grammar.isTarget n := by
  cases n with
  | conditional _ _ _ elseBranch => cases elseBranch <;> rfl
  | returnValue _ value => cases value <;> rfl
  | _ => rfl

/-- No location of the tree is changed, neither of a node nor of a name. -/
def FixedBy (f : Location → Location) (n : Node) : Prop :=
  ∀ m : Node, m.Within n → f m.loc = m.loc ∧ ∀ x ∈ m.names, x.mapLoc f = x

namespace FixedBy

variable {f : Location → Location} {n : Node} (fixed : n.FixedBy f)

include fixed

theorem loc : f n.loc = n.loc :=
  (fixed n (.self n)).1

theorem names : ∀ x ∈ n.names, x.mapLoc f = x :=
  (fixed n (.self n)).2

theorem child {inner : Node} (member : inner ∈ n.children) : inner.FixedBy f :=
  fun m within => fixed m (.child member within)

end FixedBy

mutual

/-- Where every location stays, so does the tree. -/
theorem mapLoc_eq_self {f : Location → Location} : ∀ n : Node, n.FixedBy f → n.mapLoc f = n
  | constant _ _, fixed | name _ _, fixed | breakLoop _, fixed | continueLoop _, fixed
  | returnValue _ none, fixed => by simpa [mapLoc, loc] using fixed.loc
  | returnValue _ (some value), fixed => by
    simpa [mapLoc, loc, mapLoc_eq_self value (fixed.child (by simp [children]))] using fixed.loc
  | block _ body, fixed => by
    simpa [mapLoc, loc, mapLocAll_eq_self body fun _ member => fixed.child member] using fixed.loc
  | statement _ value, fixed => by
    simpa [mapLoc, loc, mapLoc_eq_self value (fixed.child (by simp [children]))] using fixed.loc
  | assign _ target value, fixed => by
    simpa [mapLoc, loc, mapLoc_eq_self target (fixed.child (by simp [children])),
      mapLoc_eq_self value (fixed.child (by simp [children]))] using fixed.loc
  | call _ callee args, fixed => by
    have named : callee.mapLoc f = callee := fixed.names callee (by simp [Node.names])
    simpa [mapLoc, loc, named, mapLocAll_eq_self args fun _ member => fixed.child member]
      using fixed.loc
  | binary _ left _ right, fixed => by
    simpa [mapLoc, loc, mapLoc_eq_self left (fixed.child (by simp [children])),
      mapLoc_eq_self right (fixed.child (by simp [children]))] using fixed.loc
  | unary _ _ operand, fixed => by
    simpa [mapLoc, loc, mapLoc_eq_self operand (fixed.child (by simp [children]))] using fixed.loc
  | logical _ left _ right, fixed => by
    simpa [mapLoc, loc, mapLoc_eq_self left (fixed.child (by simp [children])),
      mapLoc_eq_self right (fixed.child (by simp [children]))] using fixed.loc
  | conditional _ condition thenBranch none, fixed => by
    simpa [mapLoc, loc, mapLoc_eq_self condition (fixed.child (by simp [children])),
      mapLoc_eq_self thenBranch (fixed.child (by simp [children]))] using fixed.loc
  | conditional _ condition thenBranch (some elseBranch), fixed => by
    simpa [mapLoc, loc, mapLoc_eq_self condition (fixed.child (by simp [children])),
      mapLoc_eq_self thenBranch (fixed.child (by simp [children])),
      mapLoc_eq_self elseBranch (fixed.child (by simp [children]))] using fixed.loc
  | index _ owner key, fixed => by
    simpa [mapLoc, loc, mapLoc_eq_self owner (fixed.child (by simp [children])),
      mapLoc_eq_self key (fixed.child (by simp [children]))] using fixed.loc
  | object _ properties, fixed => by
    simpa [mapLoc, loc, mapLocPairs_eq_self properties fun _ member => fixed.child member]
      using fixed.loc
  | array _ items, fixed => by
    simpa [mapLoc, loc, mapLocAll_eq_self items fun _ member => fixed.child member] using fixed.loc
  | whileLoop _ condition body _, fixed => by
    simpa [mapLoc, loc, mapLoc_eq_self condition (fixed.child (by simp [children])),
      mapLoc_eq_self body (fixed.child (by simp [children]))] using fixed.loc
  | countLoop _ counter start bound _ step body _, fixed => by
    have named : counter.mapLoc f = counter := fixed.names counter (by simp [Node.names])
    simpa [mapLoc, loc, named, mapLoc_eq_self start (fixed.child (by simp [children])),
      mapLoc_eq_self bound (fixed.child (by simp [children])),
      mapLoc_eq_self step (fixed.child (by simp [children])),
      mapLoc_eq_self body (fixed.child (by simp [children]))] using fixed.loc
  | eachLoop _ target collection body _, fixed => by
    have named : target.mapLoc f = target := by
      have names := fixed.names
      cases target <;> simp_all [Node.names, LoopTarget.names, LoopTarget.mapLoc]
    simpa [mapLoc, loc, named, mapLoc_eq_self collection (fixed.child (by simp [children])),
      mapLoc_eq_self body (fixed.child (by simp [children]))] using fixed.loc

theorem mapLocAll_eq_self {f : Location → Location} :
    ∀ ns : List Node, (∀ n ∈ ns, n.FixedBy f) → mapLocAll f ns = ns
  | [], _ => rfl
  | n :: ns, fixed => by
    simp [mapLocAll, mapLoc_eq_self n (fixed n (by simp)),
      mapLocAll_eq_self ns fun m member => fixed m (by simp [member])]

theorem mapLocPairs_eq_self {f : Location → Location} :
    ∀ ps : List (Node × Node), (∀ n ∈ ps.flatMap fun p => [p.1, p.2], n.FixedBy f) →
      mapLocPairs f ps = ps
  | [], _ => rfl
  | (key, value) :: ps, fixed => by
    have later : ∀ n ∈ ps.flatMap (fun p => [p.1, p.2]), n.FixedBy f := by
      intro n member
      refine fixed n ?_
      rw [List.flatMap_cons]
      exact List.mem_append_right _ member
    simp [mapLocPairs, mapLoc_eq_self key (fixed key (by simp)),
      mapLoc_eq_self value (fixed value (by simp)), mapLocPairs_eq_self ps later]

end

theorem fixedBy_id (n : Node) : n.FixedBy id :=
  fun _ _ => ⟨rfl, fun _ _ => rfl⟩

@[simp] theorem mapLoc_id (n : Node) : n.mapLoc id = n :=
  mapLoc_eq_self n n.fixedBy_id

@[simp] theorem mapLocAll_id (ns : List Node) : mapLocAll id ns = ns :=
  mapLocAll_eq_self ns fun n _ => n.fixedBy_id

end Node

end Polyglot
