import Polyglot.Proofs.Eval.Visits
import Polyglot.Proofs.Termination

/-!
# Running while cancelled

On a cancelled machine no loop makes an iteration, so what a tree does there does not depend on
what is inside the iterations of its loops. `hollow` forgets just that, and `Agrees` relates two
actions that cannot be told apart on cancelled machines; a tree agrees with its hollow.
-/

namespace Polyglot

variable {φ α β : Type}

/-! ## Hollow trees -/

namespace Node

mutual

/-- The tree without what is inside the iterations of its loops: their bodies, the steps of their
counters and the names they bind to elements. -/
def hollow : Node → Node
  | constant l value => constant l value
  | name l s => name l s
  | block l body => block l (hollowAll body)
  | statement l value => statement l value.hollow
  | assign l target value => assign l target.hollow value.hollow
  | call l callee args => call l callee (hollowAll args)
  | binary l left op right => binary l left.hollow op right.hollow
  | unary l op operand => unary l op operand.hollow
  | logical l left op right => logical l left.hollow op right.hollow
  | conditional l condition thenBranch none =>
    conditional l condition.hollow thenBranch.hollow none
  | conditional l condition thenBranch (some elseBranch) =>
    conditional l condition.hollow thenBranch.hollow (some elseBranch.hollow)
  | index l owner key => index l owner.hollow key.hollow
  | object l properties => object l (hollowPairs properties)
  | array l items => array l (hollowAll items)
  | whileLoop l condition _ retain => whileLoop l condition.hollow default retain
  | countLoop l counter start bound direction _ _ retain =>
    countLoop l counter start.hollow bound.hollow direction default default retain
  | eachLoop l _ collection _ retain => eachLoop l default collection.hollow default retain
  | breakLoop l => breakLoop l
  | continueLoop l => continueLoop l
  | returnValue l none => returnValue l none
  | returnValue l (some value) => returnValue l (some value.hollow)

/-- The trees without what is inside the iterations of their loops. -/
def hollowAll : List Node → List Node
  | [] => []
  | n :: ns => n.hollow :: hollowAll ns

/-- The keys and values without what is inside the iterations of their loops. -/
def hollowPairs : List (Node × Node) → List (Node × Node)
  | [] => []
  | (key, value) :: ps => (key.hollow, value.hollow) :: hollowPairs ps

end

@[simp] theorem loc_hollow (n : Node) : n.hollow.loc = n.loc := by
  cases n with
  | conditional _ _ _ elseBranch => cases elseBranch <;> rfl
  | returnValue _ value => cases value <;> rfl
  | _ => rfl

theorem isTarget_hollow (n : Node) : Grammar.isTarget n.hollow = Grammar.isTarget n := by
  cases n with
  | conditional _ _ _ elseBranch => cases elseBranch <;> rfl
  | returnValue _ value => cases value <;> rfl
  | _ => rfl

end Node

/-! ## Actions on cancelled machines -/

/-- Two actions go alike on a machine and leave it cancelled; they do not stop for want of
iterations, if functions of the host return. -/
structure AgreesOn (host : Host φ) (act act' : Eval φ α) (m : Machine φ) : Prop where
  same : outcome act m = outcome act' m
  cancelled : (outcome act m).2.self.cancelled = true
  finished : host.Returns → (outcome act m).1 ≠ .error (.stopped .unfinished)

/-- Two actions cannot be told apart on cancelled machines. -/
def Agrees (host : Host φ) (act act' : Eval φ α) : Prop :=
  ∀ m, m.self.cancelled = true → AgreesOn host act act' m

namespace Eval

/-- What a loop does that may not go on: it fails if there is to be an iteration, and has made all
its iterations otherwise. -/
def halt (goesOn : Eval φ Bool) (kept : α) : Eval φ α := do
  if ← goesOn then fail .cancelled else return kept

/-- A cancelled loop that comes to its checkpoint does not come to what follows. -/
theorem outcome_checkpoint_bind {m : Machine φ} (cancelled : m.self.cancelled = true)
    (count : Nat) (rest : Unit → Eval φ α) :
    outcome (checkpoint count >>= rest) m = outcome (fail .cancelled : Eval φ α) m := by
  rw [outcome_bind, checkpoint_eq, outcome_bind, outcome_observe]
  simp only [cancelled, if_true]
  rfl

/-- A loop that is cancelled once its condition is known makes no further iteration, however many
it has made. -/
theorem outcome_repeatWhile_eq_halt {goesOn : Eval φ Bool} {m : Machine φ}
    (cancelled : (outcome goesOn m).2.self.cancelled = true) (body : Eval φ Value)
    (advance : Eval φ Unit) (retain : Bool) (fuel count : Nat) (kept : Array Value) :
    outcome (repeatWhile goesOn body advance retain (fuel + 1) count kept) m =
      outcome (halt goesOn kept) m := by
  rw [repeatWhile, halt, outcome_bind, outcome_bind]
  rcases result : outcome goesOn m with ⟨exit | goes, m'⟩
  · rfl
  · rw [result] at cancelled
    cases goes with
    | false => rfl
    | true => exact outcome_checkpoint_bind cancelled count _

/-- A cancelled loop over elements binds no further element. -/
theorem outcome_forEach_eq_halt {m : Machine φ} (cancelled : m.self.cancelled = true)
    (bind : Value → Eval φ Unit) (body : Eval φ Value) (retain : Bool) (items : List Value)
    (count : Nat) (kept : Array Value) :
    outcome (forEach bind body retain items count kept) m =
      outcome (halt (pure !items.isEmpty) kept) m := by
  cases items with
  | nil => rfl
  | cons item items => exact outcome_checkpoint_bind cancelled count _

end Eval

namespace Agrees

variable {host : Host φ}

theorem symm {act act' : Eval φ α} (agrees : Agrees host act act') : Agrees host act' act := by
  intro m cancelled
  obtain ⟨same, after, finished⟩ := agrees m cancelled
  exact ⟨same.symm, same ▸ after, same ▸ finished⟩

theorem trans {act act' act'' : Eval φ α} (first : Agrees host act act')
    (second : Agrees host act' act'') : Agrees host act act'' := by
  intro m cancelled
  obtain ⟨same, after, finished⟩ := first m cancelled
  exact ⟨same.trans (second m cancelled).same, after, finished⟩

/-- An action that finishes and leaves the flag as it is agrees with itself. -/
theorem of_step {act : Eval φ α}
    (keeps : ∀ m, (outcome act m).2.self.cancelled = m.self.cancelled)
    (finished : ∀ m, (outcome act m).1 ≠ .error (.stopped .unfinished)) :
    Agrees host act act :=
  fun m cancelled => ⟨rfl, (keeps m).trans cancelled, fun _ => finished m⟩

theorem pure (a : α) : Agrees host (Pure.pure a) (Pure.pure a) :=
  of_step (fun _ => rfl) fun _ => by simp

theorem fail (fault : RuntimeFault) :
    Agrees host (Eval.fail fault : Eval φ α) (Eval.fail fault) :=
  of_step (fun _ => rfl) fun _ => by simp

theorem exits {exit : Exit} (other : exit ≠ .stopped .unfinished) :
    Agrees host (throw exit : Eval φ α) (throw exit) :=
  of_step (fun _ => rfl) fun _ => by simpa using other

theorem bind {act act' : Eval φ α} {next next' : α → Eval φ β} (first : Agrees host act act')
    (rest : ∀ a, Agrees host (next a) (next' a)) :
    Agrees host (act >>= next) (act' >>= next') := by
  intro m cancelled
  obtain ⟨same, after, finished⟩ := first m cancelled
  rcases result : outcome act m with ⟨exit | a, m'⟩
  · rw [result] at same after finished
    have left : outcome (act >>= next) m = (.error exit, m') := by rw [outcome_bind, result]
    have right : outcome (act' >>= next') m = (.error exit, m') := by rw [outcome_bind, ← same]
    refine ⟨left.trans right.symm, left ▸ after, fun returns stopped => ?_⟩
    rw [left] at stopped
    cases stopped
    exact finished returns rfl
  · rw [result] at same after
    have left : outcome (act >>= next) m = outcome (next a) m' := by rw [outcome_bind, result]
    have right : outcome (act' >>= next') m = outcome (next' a) m' := by
      rw [outcome_bind, ← same]
    obtain ⟨same', after', finished'⟩ := rest a m' after
    exact ⟨(left.trans same').trans right.symm, left ▸ after', left ▸ finished'⟩

theorem locate {act act' : Eval φ α} (loc : Location) (inner : Agrees host act act') :
    Agrees host (Eval.locate loc act) (Eval.locate loc act') := by
  intro m cancelled
  obtain ⟨same, after, finished⟩ := inner m cancelled
  refine ⟨?_, ?_, fun returns stopped => finished returns ?_⟩
  · rw [Eval.outcome_locate, Eval.outcome_locate, same]
  · rw [Eval.outcome_locate]
    exact after
  · rw [Eval.outcome_locate] at stopped
    rcases result : (outcome act m).1 with (_ | _ | _ | (_ | _)) | _ <;> rw [result] at stopped <;>
      cases stopped

theorem withScope {act act' : Eval φ α} (name : String) (inner : Agrees host act act') :
    Agrees host (Eval.withScope name act) (Eval.withScope name act') := by
  intro m cancelled
  obtain ⟨same, after, finished⟩ := inner (m.pushScope name) cancelled
  refine ⟨?_, ?_, ?_⟩
  · rw [Eval.outcome_withScope, Eval.outcome_withScope, same]
  · rw [Eval.outcome_withScope]
    exact after
  · rw [Eval.outcome_withScope]
    exact finished

theorem indexSet (owner key value : Value) :
    Agrees host (Eval.indexSet owner key value : Eval φ Unit) (Eval.indexSet owner key value) := by
  have written (m : Machine φ) :
      (outcome (Eval.indexSet owner key value) m).2.self.cancelled = m.self.cancelled ∧
      (outcome (Eval.indexSet owner key value) m).1 ≠ .error (.stopped .unfinished) := by
    rw [Eval.outcome_indexSet]
    cases m.world.heap.indexSet owner key value with
    | error fault => exact ⟨rfl, by simp⟩
    | ok heap => exact ⟨rfl, by simp⟩
  exact of_step (fun m => (written m).1) fun m => (written m).2

theorem call (keeps : host.KeepsCancelled) (function : φ) (args : List Value) :
    Agrees host (Eval.ofAction (host function args)) (Eval.ofAction (host function args)) := by
  intro m cancelled
  refine ⟨rfl, ?_, fun returns stopped => returns function args m ?_⟩
  · rw [Eval.outcome_ofAction]
    exact keeps function args m cancelled
  · rw [Eval.outcome_ofAction] at stopped
    rcases result : (outcome (host function args) m).1 with _ | _ <;> rw [result] at stopped <;>
      cases stopped
    rfl

/-- Steps that only read, write and compute. -/
theorem steps : Steps id (fun _ {_} act act' => Agrees host act act') where
  pure _ _ := pure
  bind := bind
  observe _ _ _ _ := of_step (fun _ => rfl) fun _ => by simp
  fail _ _ fault _ := fail fault
  locate := locate
  assign _ _ _ := of_step (fun _ => rfl) fun _ => by simp [Eval.assign]
  newList _ _ := of_step (fun _ => rfl) fun _ => by simp [Eval.newList]

theorem halt {goesOn goesOn' : Eval φ Bool} (test : Agrees host goesOn goesOn') (kept : α) :
    Agrees host (Eval.halt goesOn kept) (Eval.halt goesOn' kept) := by
  refine test.bind fun goes => ?_
  cases goes with
  | true => exact fail _
  | false => exact pure kept

/-! ## Loops -/

theorem repeatWhile_halt {goesOn : Eval φ Bool} (test : Agrees host goesOn goesOn)
    (body : Eval φ Value) (advance : Eval φ Unit) (retain : Bool) (fuel count : Nat)
    (kept : Array Value) :
    Agrees host (Eval.repeatWhile goesOn body advance retain (fuel + 1) count kept)
      (Eval.halt goesOn kept) := by
  intro m cancelled
  have same := Eval.outcome_repeatWhile_eq_halt (test m cancelled).cancelled body advance retain
    fuel count kept
  obtain ⟨-, after, finished⟩ := test.halt kept m cancelled
  exact ⟨same, same ▸ after, same ▸ finished⟩

theorem forEach_halt (bind : Value → Eval φ Unit) (body : Eval φ Value) (retain : Bool)
    (items : List Value) (count : Nat) (kept : Array Value) :
    Agrees host (Eval.forEach bind body retain items count kept)
      (Eval.halt (Pure.pure !items.isEmpty) kept) := by
  intro m cancelled
  have same := Eval.outcome_forEach_eq_halt cancelled bind body retain items count kept
  obtain ⟨-, after, finished⟩ := (pure !items.isEmpty).halt kept m cancelled
  exact ⟨same, same ▸ after, same ▸ finished⟩

theorem repeatWhile {goesOn goesOn' : Eval φ Bool} (test : Agrees host goesOn goesOn')
    (body body' : Eval φ Value) (advance advance' : Eval φ Unit) (retain : Bool)
    (fuel fuel' count : Nat) (kept : Array Value) :
    Agrees host (Eval.repeatWhile goesOn body advance retain (fuel + 1) count kept)
      (Eval.repeatWhile goesOn' body' advance' retain (fuel' + 1) count kept) := by
  have left := repeatWhile_halt (test.trans test.symm) body advance retain fuel count kept
  have right := repeatWhile_halt (test.symm.trans test) body' advance' retain fuel' count kept
  exact left.trans ((test.halt kept).trans right.symm)

theorem forEach (bind bind' : Value → Eval φ Unit) (body body' : Eval φ Value) (retain : Bool)
    (items : List Value) (count : Nat) (kept : Array Value) :
    Agrees host (Eval.forEach bind body retain items count kept)
      (Eval.forEach bind' body' retain items count kept) :=
  (forEach_halt bind body retain items count kept).trans
    (forEach_halt bind' body' retain items count kept).symm

end Agrees

/-! ## Trees -/

namespace Host.KeepsCancelled

variable {host : Host φ} {budget budget' : Nat}

mutual

/-- Evaluating a tree agrees with evaluating its hollow, if every loop may make an iteration. -/
theorem eval_hollow (keeps : host.KeepsCancelled) : ∀ n : Node,
    Agrees host (n.eval host (budget + 1)) (n.hollow.eval host (budget' + 1))
  | .constant _ value => by
    simp only [Node.hollow, Node.eval]
    exact .locate _ (.pure _)
  | .name _ s => by
    simp only [Node.hollow, Node.eval]
    exact .locate _ (Agrees.steps.lookup (p := .anywhere) s)
  | .block _ body => by
    simp only [Node.hollow, Node.eval]
    exact .locate _ (.withScope _ (keeps.evalBody_hollow _ body))
  | .statement _ value => by
    simp only [Node.hollow, Node.eval]
    exact .locate _ (keeps.eval_hollow value)
  | .assign _ target value => by
    cases target with
    | name _ s =>
      simp only [Node.hollow, Node.eval]
      exact .locate _ (.bind (keeps.eval_hollow value) fun v =>
        .bind (Agrees.steps.assign .anywhere s v) fun _ => .pure v)
    | index loc owner key =>
      simp only [Node.hollow, Node.eval]
      exact .locate _ (.bind (keeps.eval_hollow value) fun v =>
        .bind (keeps.eval_hollow owner) fun o => .bind (keeps.eval_hollow key) fun k =>
          .bind (.locate loc (.indexSet o k v)) fun _ => .pure v)
    | _ =>
      rw [Node.hollow, Node.eval_assign_bad host _ rfl,
        Node.eval_assign_bad host _ (by rw [Node.isTarget_hollow]; rfl)]
      exact .locate _ (.bind (keeps.eval_hollow value) fun _ => .fail _)
  | .call _ callee args => by
    rw [Node.hollow, Node.eval_call, Node.eval_call]
    refine .locate _ (.bind (Agrees.steps.observe .anywhere
      (Machine.visible_self fun self => self.functions.get? callee.item)) fun found => ?_)
    cases found with
    | none => exact .bind (.of_step (fun _ => rfl) fun _ => by simp) fun _ => .pure _
    | some function =>
      exact .bind (keeps.evalAll_hollow args) fun values => .call keeps function values
  | .binary _ left op right => by
    simp only [Node.hollow, Node.eval]
    exact .locate _ (.bind (keeps.eval_hollow left) fun a =>
      .bind (keeps.eval_hollow right) fun b => Agrees.steps.binary (p := .anywhere) op a b)
  | .unary _ op operand => by
    simp only [Node.hollow, Node.eval]
    exact .locate _ (.bind (keeps.eval_hollow operand) fun v =>
      Agrees.steps.ofResult (p := .anywhere) _ fun _ => Heap.kind_of_unary)
  | .logical _ left op right => by
    simp only [Node.hollow, Node.eval]
    refine .locate _ (.bind (keeps.eval_hollow left) fun a => ?_)
    cases op with
    | nullish =>
      dsimp only
      split
      · exact keeps.eval_hollow right
      · exact .pure a
    | and =>
      dsimp only
      split
      · exact .bind (keeps.eval_hollow right) fun _ => .pure _
      · exact .pure _
    | or =>
      dsimp only
      split
      · exact .pure _
      · exact .bind (keeps.eval_hollow right) fun _ => .pure _
  | .conditional _ condition thenBranch none => by
    simp only [Node.hollow, Node.eval]
    refine .locate _ (.bind (keeps.eval_hollow condition) fun c => ?_)
    split
    · exact keeps.eval_hollow thenBranch
    · exact .pure _
  | .conditional _ condition thenBranch (some elseBranch) => by
    simp only [Node.hollow, Node.eval]
    refine .locate _ (.bind (keeps.eval_hollow condition) fun c => ?_)
    split
    · exact keeps.eval_hollow thenBranch
    · exact keeps.eval_hollow elseBranch
  | .index _ owner key => by
    simp only [Node.hollow, Node.eval]
    exact .locate _ (.bind (keeps.eval_hollow owner) fun o => .bind (keeps.eval_hollow key) fun k =>
      Agrees.steps.indexGet (p := .anywhere) o k)
  | .object _ properties => by
    simp only [Node.hollow, Node.eval]
    exact .locate _ (.bind (keeps.evalProperties_hollow _ properties) fun entries =>
      .of_step (fun _ => rfl) fun _ => by simp [Eval.newMap])
  | .array _ items => by
    simp only [Node.hollow, Node.eval]
    exact .locate _ (.bind (keeps.evalAll_hollow items) fun values =>
      Agrees.steps.newList .anywhere _)
  | .whileLoop _ condition body retain => by
    have test := (keeps.eval_hollow condition).bind fun c => Agrees.pure c.truthy
    simp only [Node.hollow, Node.eval]
    exact .locate _ (.bind (test.repeatWhile _ _ _ _ retain budget budget' 0 #[]) fun kept =>
      Agrees.steps.loopValue (p := .anywhere) retain kept)
  | .countLoop _ counter start bound direction step body retain => by
    have test := (Agrees.steps.boundOf (p := .anywhere) bound.loc (keeps.eval_hollow bound)).bind
      fun limit => (Agrees.steps.counterOf (p := .anywhere) counter.item).bind fun current =>
        Agrees.pure (Eval.inRange direction limit current)
    simp only [Node.hollow, Node.eval, Node.loc_hollow]
    exact .locate _ (.withScope _ (.bind (keeps.eval_hollow start) fun first =>
      .bind (Agrees.steps.assign .anywhere counter.item first) fun _ =>
        .bind (test.repeatWhile _ _ _ _ retain budget budget' 0 #[]) fun kept =>
          Agrees.steps.loopValue (p := .anywhere) retain kept))
  | .eachLoop _ target collection body retain => by
    rw [Node.hollow, Node.eval_eachLoop, Node.eval_eachLoop]
    refine .locate _ (.bind (keeps.eval_hollow collection) fun v => .bind
      (Agrees.steps.observe .anywhere (Machine.visible_heap fun heap => heap.listItems? v))
      fun found => ?_)
    cases found with
    | none => exact .fail _
    | some items =>
      exact .withScope _ (.bind (.forEach _ _ _ _ retain items.toList 0 #[]) fun kept =>
        Agrees.steps.loopValue (p := .anywhere) retain kept)
  | .breakLoop _ => by
    simp only [Node.hollow, Node.eval]
    exact .locate _ (.exits (by simp))
  | .continueLoop _ => by
    simp only [Node.hollow, Node.eval]
    exact .locate _ (.exits (by simp))
  | .returnValue _ none => by
    simp only [Node.hollow, Node.eval]
    exact .locate _ (.exits (by simp))
  | .returnValue _ (some value) => by
    simp only [Node.hollow, Node.eval]
    exact .locate _ (.bind (keeps.eval_hollow value) fun v => .exits (by simp))

theorem evalAll_hollow (keeps : host.KeepsCancelled) : ∀ ns : List Node,
    Agrees host (Node.evalAll host (budget + 1) ns)
      (Node.evalAll host (budget' + 1) (Node.hollowAll ns))
  | [] => .pure []
  | n :: ns => by
    simp only [Node.hollowAll, Node.evalAll]
    exact .bind (keeps.eval_hollow n) fun v => .bind (keeps.evalAll_hollow ns) fun vs => .pure _

theorem evalBody_hollow (keeps : host.KeepsCancelled) : ∀ (last : Value) (ns : List Node),
    Agrees host (Node.evalBody host (budget + 1) last ns)
      (Node.evalBody host (budget' + 1) last (Node.hollowAll ns))
  | last, [] => .pure last
  | last, n :: ns => by
    simp only [Node.hollowAll, Node.evalBody]
    exact .bind (keeps.eval_hollow n) fun v => keeps.evalBody_hollow v ns

theorem evalProperties_hollow (keeps : host.KeepsCancelled) :
    ∀ (entries : OrderedMap Value) (ps : List (Node × Node)),
    Agrees host (Node.evalProperties host (budget + 1) entries ps)
      (Node.evalProperties host (budget' + 1) entries (Node.hollowPairs ps))
  | entries, [] => .pure entries
  | entries, (key, value) :: ps => by
    simp only [Node.hollowPairs, Node.evalProperties]
    exact .bind (keeps.eval_hollow key) fun k => .bind (keeps.eval_hollow value) fun v =>
      .bind (Agrees.steps.display (p := .anywhere) k) fun text => keeps.evalProperties_hollow _ ps

end

/-- Trees that differ only inside the iterations of their loops agree. -/
theorem eval_agrees (keeps : host.KeepsCancelled) {n n' : Node} (alike : n.hollow = n'.hollow) :
    Agrees host (n.eval host (budget + 1)) (n'.eval host (budget' + 1)) := by
  have left : Agrees host (n.eval host (budget + 1)) (n.hollow.eval host (0 + 1)) :=
    keeps.eval_hollow n
  have right : Agrees host (n'.eval host (budget' + 1)) (n'.hollow.eval host (0 + 1)) :=
    keeps.eval_hollow n'
  rw [← alike] at right
  exact left.trans right.symm

end Host.KeepsCancelled

end Polyglot
