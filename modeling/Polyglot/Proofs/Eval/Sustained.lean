import Polyglot.Proofs.Eval.Limit
import Polyglot.Proofs.Program.Parts

/-!
# Properties of watched trees

What the steps of evaluation establish and keep when they are put together holds of the watched
evaluation of every tree. A property of the tree is shown to be so for each of these steps, and the
walk through the tree is made once.
-/

namespace Polyglot

variable {φ : Type}

/-! ## Loops that may go on -/

namespace Node

mutual

/-- A condition or a counter decides somewhere in the tree how often a loop goes on. -/
def Repeats : Node → Prop
  | constant _ _ | name _ _ | breakLoop _ | continueLoop _ | returnValue _ none => False
  | block _ body => AnyRepeats body
  | statement _ value => value.Repeats
  | assign _ target value => target.Repeats ∨ value.Repeats
  | call _ _ args => AnyRepeats args
  | binary _ left _ right | logical _ left _ right => left.Repeats ∨ right.Repeats
  | unary _ _ operand => operand.Repeats
  | conditional _ condition thenBranch none => condition.Repeats ∨ thenBranch.Repeats
  | conditional _ condition thenBranch (some elseBranch) =>
    condition.Repeats ∨ thenBranch.Repeats ∨ elseBranch.Repeats
  | index _ owner key => owner.Repeats ∨ key.Repeats
  | object _ properties => AnyRepeatsPairs properties
  | array _ items => AnyRepeats items
  | whileLoop _ _ _ _ | countLoop _ _ _ _ _ _ _ _ => True
  | eachLoop _ _ collection body _ => collection.Repeats ∨ body.Repeats
  | returnValue _ (some value) => value.Repeats

/-- Some tree of a list has such a loop in it. -/
def AnyRepeats : List Node → Prop
  | [] => False
  | n :: ns => n.Repeats ∨ AnyRepeats ns

/-- Some key or value of a list has such a loop in it. -/
def AnyRepeatsPairs : List (Node × Node) → Prop
  | [] => False
  | (key, value) :: ps => key.Repeats ∨ value.Repeats ∨ AnyRepeatsPairs ps

end

theorem anyRepeats_iff {ns : List Node} : AnyRepeats ns ↔ ∃ n ∈ ns, n.Repeats := by
  induction ns with
  | nil => simp [AnyRepeats]
  | cons n ns ih => simp [AnyRepeats, ih]

theorem anyRepeatsPairs_iff {ps : List (Node × Node)} :
    AnyRepeatsPairs ps ↔ ∃ n ∈ ps.flatMap fun p => [p.1, p.2], n.Repeats := by
  induction ps with
  | nil => simp [AnyRepeatsPairs]
  | cons p ps ih => simp [AnyRepeatsPairs, ih, or_and_right, exists_or]

/-- A loop in a part of a tree is in the tree. -/
theorem Repeats.of_child {inner outer : Node} (member : inner ∈ outer.children)
    (repeats : inner.Repeats) : outer.Repeats := by
  cases outer with
  | block _ body => exact anyRepeats_iff.2 ⟨inner, member, repeats⟩
  | call _ _ args => exact anyRepeats_iff.2 ⟨inner, member, repeats⟩
  | array _ items => exact anyRepeats_iff.2 ⟨inner, member, repeats⟩
  | object _ properties => exact anyRepeatsPairs_iff.2 ⟨inner, member, repeats⟩
  | conditional _ _ _ elseBranch =>
    cases elseBranch <;> simp only [children] at member <;> grind [Repeats]
  | returnValue _ value => cases value <;> simp only [children] at member <;> grind [Repeats]
  | _ =>
    simp only [children] at member
    grind [Repeats]

theorem Repeats.of_within {inner outer : Node} (within : inner.Within outer) :
    inner.Repeats → outer.Repeats := by
  induction within with
  | self => exact id
  | child member _ ih => exact fun repeats => (ih repeats).of_child member

end Node

/-! ## Trees -/

/-- A property of watched actions that the steps of evaluation have and that is kept where they are
put together, provided that something is known of the nodes that are evaluated. -/
structure Sustained (host : Host φ) (budget : Nat) (known : Node → Prop)
    (P : ∀ {α : Type}, Watched (Deed φ) φ α → Prop) : Prop where
  quiet : ∀ {α} {act : Eval φ α}, Calm act → P (.quiet act)
  bind : ∀ {α β} {w : Watched (Deed φ) φ α} {next : α → Watched (Deed φ) φ β},
    P w → (∀ a, P (next a)) → P (w >>= next)
  visit : ∀ {n : Node} {w : Watched (Deed φ) φ Value}, known n →
    (w.visit n).act = n.eval host budget → P w → P (w.visit n)
  withScope : ∀ {α} {w : Watched (Deed φ) φ α} name, P w → P (w.withScope name)
  call : ∀ function args, P (.call (host function args))
  repeatWhile : ∀ {n : Node} {goesOn body advance} retain, known n → n.Repeats → P goesOn →
    P body → P advance →
    P (Watched.repeatWhile goesOn body advance retain budget 0 #[]).loop
  forEach : ∀ {bind : Value → Watched (Deed φ) φ Unit} {body} retain items,
    (∀ item, P (bind item)) → P body → P (Watched.forEach bind body retain items 0 #[]).loop

namespace Sustained

variable {host : Host φ} {budget : Nat} {known : Node → Prop}
  {P : ∀ {α : Type}, Watched (Deed φ) φ α → Prop}

theorem pure {α : Type} (sustained : Sustained host budget known P) (a : α) :
    P (Pure.pure a : Watched (Deed φ) φ α) :=
  sustained.quiet (Calm.steps.pure .anywhere a)

/-- A node is evaluated by what its kind says, and located. -/
theorem node (sustained : Sustained host budget known P) {n : Node}
    {w : Watched (Deed φ) φ Value} (unfolded : n.watch host budget = w.visit n) (here : known n)
    (inner : P w) : P (n.watch host budget) := by
  have same := n.act_watch host budget
  rw [unfolded] at same ⊢
  exact sustained.visit here same inner

mutual

/-- The property holds of a tree if what is to be known is known of every node in it. -/
theorem watch (sustained : Sustained host budget known P) : ∀ n : Node,
    (∀ k : Node, k.Within n → known k) → P (n.watch host budget)
  | .constant _ value, all => by
    refine sustained.node (by rw [Node.watch]) (all _ (.self _)) ?_
    exact sustained.pure _
  | .name _ s, all => by
    refine sustained.node (by rw [Node.watch]) (all _ (.self _)) ?_
    exact sustained.quiet (Calm.steps.lookup (p := .anywhere) s)
  | .block _ body, all => by
    refine sustained.node (by rw [Node.watch]) (all _ (.self _)) ?_
    exact sustained.withScope _ (sustained.watchBody _ body fun n member k within =>
      all k (.child member within))
  | .statement _ value, all => by
    refine sustained.node (by rw [Node.watch]) (all _ (.self _)) ?_
    exact sustained.watch value fun k within => all k (.child (.head _) within)
  | .assign _ target value, all => by
    have inner := sustained.watch value fun k within => all k (.child (.tail _ (.head _)) within)
    cases target with
    | name _ s =>
      refine sustained.node (by rw [Node.watch]) (all _ (.self _)) ?_
      exact sustained.bind inner fun v =>
        sustained.bind (sustained.quiet (Calm.steps.assign .anywhere s v)) fun _ =>
          sustained.pure v
    | index loc owner key =>
      have inOwner := sustained.watch owner fun k within =>
        all k (.child (.head _) (.child (.head _) within))
      have inKey := sustained.watch key fun k within =>
        all k (.child (.head _) (.child (.tail _ (.head _)) within))
      refine sustained.node (by rw [Node.watch]) (all _ (.self _)) ?_
      exact sustained.bind inner fun v => sustained.bind inOwner fun o =>
        sustained.bind inKey fun k =>
          sustained.bind (sustained.quiet ((Calm.indexSet o k v).locate loc)) fun _ =>
            sustained.pure v
    | _ =>
      refine sustained.node (by simp only [Node.watch]; rfl) (all _ (.self _)) ?_
      exact sustained.bind inner fun _ =>
        sustained.quiet (.fail _ (by simp [RuntimeFault.kind]))
  | .call _ callee args, all => by
    refine sustained.node (by rw [Node.watch]) (all _ (.self _)) ?_
    refine sustained.bind (sustained.quiet (Calm.steps.observe .anywhere
      (Machine.visible_self fun self => self.functions.get? callee.item))) fun found => ?_
    cases found with
    | none =>
      exact sustained.bind (sustained.quiet (.of_self (fun _ => ⟨rfl, rfl⟩) fun _ => rfl))
        fun _ => sustained.pure _
    | some function =>
      exact sustained.bind (sustained.watchAll args fun n member k within =>
        all k (.child member within)) fun values => sustained.call function values
  | .binary _ left op right, all => by
    have inLeft := sustained.watch left fun k within => all k (.child (.head _) within)
    have inRight := sustained.watch right fun k within =>
      all k (.child (.tail _ (.head _)) within)
    refine sustained.node (by rw [Node.watch]) (all _ (.self _)) ?_
    exact sustained.bind inLeft fun a => sustained.bind inRight fun b =>
      sustained.quiet (Calm.steps.binary (p := .anywhere) op a b)
  | .unary _ op operand, all => by
    refine sustained.node (by rw [Node.watch]) (all _ (.self _)) ?_
    exact sustained.bind (sustained.watch operand fun k within => all k (.child (.head _) within))
      fun v => sustained.quiet
        (Calm.steps.ofResult (p := .anywhere) _ fun _ => Heap.kind_of_unary)
  | .logical _ left op right, all => by
    have inLeft := sustained.watch left fun k within => all k (.child (.head _) within)
    have inRight := sustained.watch right fun k within =>
      all k (.child (.tail _ (.head _)) within)
    refine sustained.node (by rw [Node.watch]) (all _ (.self _)) ?_
    refine sustained.bind inLeft fun a => ?_
    cases op with
    | nullish =>
      dsimp only
      split
      · exact inRight
      · exact sustained.pure a
    | and =>
      dsimp only
      split
      · exact sustained.bind inRight fun _ => sustained.pure _
      · exact sustained.pure _
    | or =>
      dsimp only
      split
      · exact sustained.pure _
      · exact sustained.bind inRight fun _ => sustained.pure _
  | .conditional _ condition thenBranch none, all => by
    have test := sustained.watch condition fun k within => all k (.child (.head _) within)
    have inThen := sustained.watch thenBranch fun k within =>
      all k (.child (.tail _ (.head _)) within)
    refine sustained.node (by rw [Node.watch]) (all _ (.self _)) ?_
    refine sustained.bind test fun c => ?_
    split
    · exact inThen
    · exact sustained.pure _
  | .conditional _ condition thenBranch (some elseBranch), all => by
    have test := sustained.watch condition fun k within => all k (.child (.head _) within)
    have inThen := sustained.watch thenBranch fun k within =>
      all k (.child (.tail _ (.head _)) within)
    have inElse := sustained.watch elseBranch fun k within =>
      all k (.child (.tail _ (.tail _ (.head _))) within)
    refine sustained.node (by rw [Node.watch]) (all _ (.self _)) ?_
    refine sustained.bind test fun c => ?_
    split
    · exact inThen
    · exact inElse
  | .index _ owner key, all => by
    have inOwner := sustained.watch owner fun k within => all k (.child (.head _) within)
    have inKey := sustained.watch key fun k within => all k (.child (.tail _ (.head _)) within)
    refine sustained.node (by rw [Node.watch]) (all _ (.self _)) ?_
    exact sustained.bind inOwner fun o => sustained.bind inKey fun k =>
      sustained.quiet (Calm.steps.indexGet (p := .anywhere) o k)
  | .object _ properties, all => by
    refine sustained.node (by rw [Node.watch]) (all _ (.self _)) ?_
    exact sustained.bind (sustained.watchProperties _ properties fun n member k within =>
      all k (.child member within)) fun entries =>
        sustained.quiet (.of_self (fun _ => ⟨rfl, rfl⟩) fun _ => rfl)
  | .array _ items, all => by
    refine sustained.node (by rw [Node.watch]) (all _ (.self _)) ?_
    exact sustained.bind (sustained.watchAll items fun n member k within =>
      all k (.child member within)) fun values =>
        sustained.quiet (Calm.steps.newList .anywhere _)
  | .whileLoop _ condition body retain, all => by
    have test := sustained.bind
      (sustained.watch condition fun k within => all k (.child (.head _) within)) fun c =>
        sustained.pure c.truthy
    have inner := sustained.watch body fun k within => all k (.child (.tail _ (.head _)) within)
    refine sustained.node (by rw [Node.watch]) (all _ (.self _)) ?_
    exact sustained.bind
      (sustained.repeatWhile retain (all _ (.self _)) trivial test inner (sustained.pure ()))
      fun kept => sustained.quiet (Calm.steps.loopValue (p := .anywhere) retain kept)
  | .countLoop _ counter start bound direction step body retain, all => by
    have first := sustained.watch start fun k within => all k (.child (.head _) within)
    have inBound := sustained.watch bound fun k within =>
      all k (.child (.tail _ (.head _)) within)
    have inStep := sustained.watch step fun k within =>
      all k (.child (.tail _ (.tail _ (.head _))) within)
    have inner := sustained.watch body fun k within =>
      all k (.child (.tail _ (.tail _ (.tail _ (.head _)))) within)
    have test := sustained.bind inBound fun v =>
      sustained.bind (sustained.quiet (Calm.boundOf bound.loc v)) fun last =>
        sustained.bind (sustained.quiet (Calm.steps.counterOf (p := .anywhere) counter.item))
          fun current => sustained.pure (Eval.inRange direction last current)
    have move := sustained.bind inStep fun v =>
      sustained.quiet (Calm.moveCounter counter.item direction step.loc v)
    refine sustained.node (by rw [Node.watch]) (all _ (.self _)) ?_
    exact sustained.withScope _ (sustained.bind first fun v =>
      sustained.bind (sustained.quiet (Calm.steps.assign .anywhere counter.item v)) fun _ =>
        sustained.bind (sustained.repeatWhile retain (all _ (.self _)) trivial test inner move)
          fun kept => sustained.quiet (Calm.steps.loopValue (p := .anywhere) retain kept))
  | .eachLoop _ target collection body retain, all => by
    have inCollection := sustained.watch collection fun k within =>
      all k (.child (.head _) within)
    have inner := sustained.watch body fun k within => all k (.child (.tail _ (.head _)) within)
    refine sustained.node (by rw [Node.watch]) (all _ (.self _)) ?_
    refine sustained.bind inCollection fun v => sustained.bind (sustained.quiet
      (Calm.steps.observe .anywhere (Machine.visible_heap fun heap => heap.listItems? v)))
      fun found => ?_
    cases found with
    | none => exact sustained.quiet (Calm.steps.fail .anywhere _ rfl)
    | some items =>
      -- These are the elements from before the loop, whatever its body does to the list.
      have loop := sustained.forEach retain items.toList (fun item => sustained.quiet
        (Calm.steps.bindTarget (p := .anywhere) target item)) inner
      exact sustained.withScope _ (sustained.bind loop fun kept =>
        sustained.quiet (Calm.steps.loopValue (p := .anywhere) retain kept))
  | .breakLoop _, all => by
    refine sustained.node (by rw [Node.watch]) (all _ (.self _)) ?_
    exact sustained.quiet (.of_self (fun _ => ⟨rfl, rfl⟩) fun _ => rfl)
  | .continueLoop _, all => by
    refine sustained.node (by rw [Node.watch]) (all _ (.self _)) ?_
    exact sustained.quiet (.of_self (fun _ => ⟨rfl, rfl⟩) fun _ => rfl)
  | .returnValue _ none, all => by
    refine sustained.node (by rw [Node.watch]) (all _ (.self _)) ?_
    exact sustained.quiet (.of_self (fun _ => ⟨rfl, rfl⟩) fun _ => rfl)
  | .returnValue _ (some value), all => by
    refine sustained.node (by rw [Node.watch]) (all _ (.self _)) ?_
    exact sustained.bind (sustained.watch value fun k within => all k (.child (.head _) within))
      fun v => sustained.quiet (.of_self (fun _ => ⟨rfl, rfl⟩) fun _ => rfl)

theorem watchAll (sustained : Sustained host budget known P) : ∀ ns : List Node,
    (∀ n ∈ ns, ∀ k : Node, k.Within n → known k) → P (Node.watchAll host budget ns)
  | [], _ => sustained.pure []
  | n :: ns, all => by
    simp only [Node.watchAll]
    exact sustained.bind (sustained.watch n (all n List.mem_cons_self)) fun v =>
      sustained.bind (sustained.watchAll ns fun n member => all n (List.mem_cons_of_mem _ member))
        fun vs => sustained.pure _

theorem watchBody (sustained : Sustained host budget known P) : ∀ (last : Value) (ns : List Node),
    (∀ n ∈ ns, ∀ k : Node, k.Within n → known k) → P (Node.watchBody host budget last ns)
  | last, [], _ => sustained.pure last
  | last, n :: ns, all => by
    simp only [Node.watchBody]
    exact sustained.bind (sustained.watch n (all n List.mem_cons_self)) fun v =>
      sustained.watchBody v ns fun n member => all n (List.mem_cons_of_mem _ member)

theorem watchProperties (sustained : Sustained host budget known P) :
    ∀ (entries : OrderedMap Value) (ps : List (Node × Node)),
    (∀ n ∈ ps.flatMap fun p => [p.1, p.2], ∀ k : Node, k.Within n → known k) →
    P (Node.watchProperties host budget entries ps)
  | entries, [], _ => sustained.pure entries
  | entries, (key, value) :: ps, all => by
    have inKey := sustained.watch key (all key (.head _))
    have inValue := sustained.watch value (all value (.tail _ (.head _)))
    simp only [Node.watchProperties]
    exact sustained.bind inKey fun k => sustained.bind inValue fun v =>
      sustained.bind (sustained.quiet (Calm.steps.display (p := .anywhere) k)) fun text =>
        sustained.watchProperties _ ps fun n member => all n (.tail _ (.tail _ member))

end

end Sustained

end Polyglot
