import Polyglot.Proofs.Eval.Limit

/-!
# The rounds of a loop

A round is one evaluation of the body of a loop. A loop is watched for its rounds without being
disturbed, just as a run is watched for its activations; what a round was is told by the machine it
started on. Whether a loop keeps the values of its body bears neither on its rounds nor on how it
comes to its end: it has one course, and that course alone says which values there are to keep. A
loop can also be followed from one round to the next, as long as its rounds end with a value.
-/

namespace Polyglot

variable {φ α : Type}

/-- One evaluation of the body of a loop. -/
structure Round (φ : Type) where
  /-- The machine it started on. -/
  before : Machine φ
  result : Except Exit Value
  /-- The machine it left. -/
  after : Machine φ

namespace Round

/-- What evaluating the body is on a machine. -/
def of (body : Eval φ Value) (m : Machine φ) : Round φ :=
  ⟨m, (outcome body m).1, (outcome body m).2⟩

/-- The value of a round that ended with one, and nothing for a round that was continued or that
left the loop. -/
def value? (r : Round φ) : Option Value :=
  r.result.toOption

/-- The values of rounds in turn. -/
def values (rounds : List (Round φ)) : List Value :=
  rounds.filterMap value?

/-- The round is an evaluation of the body. -/
def Evaluates (body : Eval φ Value) (r : Round φ) : Prop :=
  outcome body r.before = (r.result, r.after)

end Round

namespace Watched

/-! ## Loops and their rounds -/

/-- Evaluates the body of a loop. -/
def round (body : Eval φ Value) : Watched (Round φ) φ Eval.Pass :=
  ⟨Eval.pass body, fun m => [.of body m]⟩

/-- Goes on after a round: not at all if it left the loop, and with the values kept so far and that
of the round if it has one. -/
def goOn (retain : Bool) (kept : Array Value)
    (next : Array Value → Watched (Round φ) φ (Array Value)) :
    Eval.Pass → Watched (Round φ) φ (Array Value)
  | .leave => pure kept
  | .next => next kept
  | .value v => next (Eval.keep retain kept v)

/-- Repeats `body` and then `advance` as long as `goesOn` holds. -/
def repeatRounds (goesOn : Eval φ Bool) (body : Eval φ Value) (advance : Eval φ Unit)
    (retain : Bool) : Nat → Nat → Array Value → Watched (Round φ) φ (Array Value)
  | 0, _, _ => quiet (throw (.stopped .unfinished))
  | fuel + 1, count, kept => do
    if ← quiet goesOn then
      quiet (Eval.checkpoint count)
      goOn retain kept
        (fun kept => do
          quiet advance
          repeatRounds goesOn body advance retain fuel (count + 1) kept)
        (← round body)
    else return kept

/-- Runs `body` for every item in turn, after binding it. -/
def forEachRounds (bind : Value → Eval φ Unit) (body : Eval φ Value) (retain : Bool) :
    List Value → Nat → Array Value → Watched (Round φ) φ (Array Value)
  | [], _, kept => return kept
  | item :: items, count, kept => do
    quiet (Eval.checkpoint count)
    quiet (bind item)
    goOn retain kept (fun kept => forEachRounds bind body retain items (count + 1) kept)
      (← round body)

@[simp] theorem act_round (body : Eval φ Value) : (round body).act = Eval.pass body := rfl

@[simp] theorem act_repeatRounds (goesOn : Eval φ Bool) (body : Eval φ Value)
    (advance : Eval φ Unit) (retain : Bool) (fuel : Nat) : ∀ count kept,
      (repeatRounds goesOn body advance retain fuel count kept).act =
        Eval.repeatWhile goesOn body advance retain fuel count kept := by
  induction fuel with
  | zero => exact fun _ _ => rfl
  | succ fuel ih =>
    intro count kept
    refine bind_congr fun goes => ?_
    cases goes with
    | false => rfl
    | true =>
      refine bind_congr fun _ => bind_congr fun ended => ?_
      cases ended with
      | leave => rfl
      | next => exact bind_congr fun _ => ih _ _
      | value v => exact bind_congr fun _ => ih _ _

@[simp] theorem act_forEachRounds (bind : Value → Eval φ Unit) (body : Eval φ Value)
    (retain : Bool) (items : List Value) : ∀ count kept,
      (forEachRounds bind body retain items count kept).act =
        Eval.forEach bind body retain items count kept := by
  induction items with
  | nil => exact fun _ _ => rfl
  | cons item items ih =>
    intro count kept
    refine bind_congr fun _ => bind_congr fun _ => bind_congr fun ended => ?_
    cases ended with
    | leave => rfl
    | next => exact ih _ _
    | value v => exact ih _ _

end Watched

/-! ## The course of a loop -/

/-- The rounds of a loop, how it ended, and the machine it left. -/
structure Course (φ : Type) where
  rounds : List (Round φ)
  ended : Except Exit Unit
  after : Machine φ

/-- What a loop has kept after further rounds. -/
def Eval.keepRounds (retain : Bool) (kept : Array Value) (rounds : List (Round φ)) :
    Array Value :=
  (Round.values rounds).foldl (keep retain) kept

theorem Eval.keepRounds_cons (retain : Bool) (kept : Array Value) (r : Round φ)
    (rounds : List (Round φ)) :
    keepRounds retain kept (r :: rounds) =
      keepRounds retain (r.value?.toList.foldl (keep retain) kept) rounds := by
  cases value : r.value? <;> simp [keepRounds, Round.values, value]

/-- On the machine the loop takes the course, whether or not it keeps values and whatever it has
kept before. -/
structure Course.Describes (body : Eval φ Value) (m : Machine φ) (c : Course φ)
    (loop : Bool → Array Value → Watched (Round φ) φ (Array Value)) : Prop where
  bodies : ∀ r ∈ c.rounds, r.Evaluates body
  seen : ∀ retain kept, (loop retain kept).seen m = c.rounds
  ends : ∀ retain kept, outcome (loop retain kept).act m =
    (c.ended.map fun _ => Eval.keepRounds retain kept c.rounds, c.after)

/-- On every machine the loop takes some course. -/
def HasCourse (body : Eval φ Value)
    (loop : Bool → Array Value → Watched (Round φ) φ (Array Value)) : Prop :=
  ∀ m, ∃ c : Course φ, c.Describes body m loop

namespace HasCourse

open Watched

variable {body : Eval φ Value}

theorem pure : HasCourse body fun _ kept => Pure.pure kept :=
  fun m => ⟨⟨[], .ok (), m⟩, by simp, fun _ _ => rfl, fun _ _ => rfl⟩

theorem throw (exit : Exit) :
    HasCourse body fun _ _ => quiet (throw exit) :=
  fun m => ⟨⟨[], .error exit, m⟩, by simp, fun _ _ => rfl, fun _ _ => rfl⟩

/-- A step of the loop outside its body is no round. -/
theorem quiet {act : Eval φ α} {loop : α → Bool → Array Value → Watched (Round φ) φ (Array Value)}
    (rest : ∀ a, HasCourse body (loop a)) :
    HasCourse body fun retain kept => Watched.quiet act >>= fun a => loop a retain kept := by
  intro m
  rcases result : outcome act m with ⟨exit | a, m'⟩
  · refine ⟨⟨[], .error exit, m'⟩, by simp, fun retain kept => ?_, fun retain kept => ?_⟩
    · exact seen_bind_error _ result
    · rw [act_bind, act_quiet, outcome_bind, result]
      rfl
  · obtain ⟨c, bodies, seen, ends⟩ := rest a m'
    refine ⟨c, bodies, fun retain kept => ?_, fun retain kept => ?_⟩
    · rw [seen_bind_ok _ result, seen]
      rfl
    · rw [act_bind, act_quiet, outcome_bind, result]
      exact ends retain kept

/-- A round after which the loop goes on, having kept what there was to keep. -/
theorem onward {next : Bool → Array Value → Watched (Round φ) φ (Array Value)}
    (rest : HasCourse body next) {m m' : Machine φ} {ended : Eval.Pass}
    {kept' : Bool → Array Value → Array Value}
    (through : outcome (Watched.round body).act m = (.ok ended, m'))
    (goes : ∀ retain kept,
      goOn retain kept (next retain) ended = next retain (kept' retain kept))
    (keeps : ∀ retain kept rounds, Eval.keepRounds retain (kept' retain kept) rounds =
      Eval.keepRounds retain kept (.of body m :: rounds)) :
    ∃ c : Course φ, c.Describes body m fun retain kept =>
      Watched.round body >>= goOn retain kept (next retain) := by
  obtain ⟨c, bodies, seen, ends⟩ := rest m'
  have all : ∀ r ∈ Round.of body m :: c.rounds, r.Evaluates body := by
    intro r member
    rcases List.mem_cons.1 member with first | later
    · exact first ▸ rfl
    · exact bodies r later
  refine ⟨⟨.of body m :: c.rounds, c.ended, c.after⟩, all, fun retain kept => ?_,
    fun retain kept => ?_⟩
  · rw [seen_bind_ok _ through, goes, seen]
    rfl
  · rw [act_bind, outcome_bind, through]
    simp only [goes, ends, keeps]

/-- A round that leaves the loop by itself or with everything around it. -/
theorem outward {next : Bool → Array Value → Watched (Round φ) φ (Array Value)}
    {m m' : Machine φ} {exit : Exit} (left : outcome body m = (.error exit, m'))
    (goes : exit ≠ .continueLoop) :
    ∃ c : Course φ, c.Describes body m fun retain kept =>
      Watched.round body >>= goOn retain kept (next retain) := by
  have passed := Eval.outcome_pass body m
  have only : ∀ r ∈ [Round.of body m], r.Evaluates body := by
    intro r member
    exact List.mem_singleton.1 member ▸ rfl
  rw [left] at passed
  by_cases leaves : exit = .breakLoop
  · subst leaves
    refine ⟨⟨[.of body m], .ok (), m'⟩, only, fun retain kept => ?_, fun retain kept => ?_⟩
    · rw [seen_bind_ok _ passed]
      rfl
    · rw [act_bind, act_round, outcome_bind, passed, Eval.keepRounds_cons, Round.value?, Round.of,
        left]
      rfl
  · have thrown : Eval.Pass.ofResult (.error exit) = .error exit := by
      cases exit <;> simp_all [Eval.Pass.ofResult]
    rw [thrown] at passed
    refine ⟨⟨[.of body m], .error exit, m'⟩, only, fun retain kept => ?_, fun retain kept => ?_⟩
    · exact seen_bind_error _ passed
    · rw [act_bind, act_round, outcome_bind, passed]
      rfl

/-- A round, and what comes after it unless it leaves the loop. -/
theorem round {next : Bool → Array Value → Watched (Round φ) φ (Array Value)}
    (rest : HasCourse body next) :
    HasCourse body fun retain kept =>
      Watched.round body >>= goOn retain kept (next retain) := by
  intro m
  have passed := Eval.outcome_pass body m
  rcases result : outcome body m with ⟨exit | v, m'⟩ <;> rw [result] at passed
  · by_cases goes : exit = .continueLoop
    · subst goes
      refine onward rest passed (fun _ _ => rfl) fun retain kept rounds => ?_
      rw [Eval.keepRounds_cons, Round.value?, Round.of, result]
      rfl
    · exact outward result goes
  · refine onward rest passed (fun _ _ => rfl) fun retain kept rounds => ?_
    rw [Eval.keepRounds_cons, Round.value?, Round.of, result]
    rfl

theorem repeatRounds (goesOn : Eval φ Bool) (advance : Eval φ Unit) (fuel : Nat) : ∀ count,
    HasCourse body fun retain kept =>
      Watched.repeatRounds goesOn body advance retain fuel count kept := by
  induction fuel with
  | zero => exact fun _ => throw _
  | succ fuel ih =>
    intro count
    refine quiet fun goes => ?_
    cases goes with
    | false => exact pure
    | true => exact quiet fun _ => round (quiet fun _ => ih (count + 1))

theorem forEachRounds (bind : Value → Eval φ Unit) (items : List Value) : ∀ count,
    HasCourse body fun retain kept =>
      Watched.forEachRounds bind body retain items count kept := by
  induction items with
  | nil => exact fun _ => pure
  | cons item items ih =>
    intro count
    exact quiet fun _ => quiet fun _ => round (ih (count + 1))

end HasCourse

/-! ## One round after another -/

namespace Watched

variable {β : Type}

theorem seen_bind_quiet (w : Watched (Round φ) φ α) (next : α → Eval φ β) (m : Machine φ) :
    (w >>= fun a => quiet (next a)).seen m = w.seen m := by
  rcases result : outcome w.act m with ⟨exit | a, m'⟩
  · exact seen_bind_error _ result
  · rw [seen_bind_ok _ result]
    exact List.append_nil _

/-- On a machine the first action makes some rounds and then goes on as the second one does on
another machine. -/
structure GoesOn (w : Watched (Round φ) φ α) (m : Machine φ) (rounds : List (Round φ))
    (w' : Watched (Round φ) φ α) (m' : Machine φ) : Prop where
  seen : w.seen m = rounds ++ w'.seen m'
  ends : outcome w.act m = outcome w'.act m'

theorem GoesOn.refl (w : Watched (Round φ) φ α) (m : Machine φ) : w.GoesOn m [] w m :=
  ⟨rfl, rfl⟩

theorem GoesOn.trans {w w' w'' : Watched (Round φ) φ α} {m m' m'' : Machine φ}
    {rounds more : List (Round φ)} (first : w.GoesOn m rounds w' m')
    (second : w'.GoesOn m' more w'' m'') : w.GoesOn m (rounds ++ more) w'' m'' :=
  ⟨by rw [first.seen, second.seen, List.append_assoc], first.ends.trans second.ends⟩

variable {goesOn : Eval φ Bool} {body : Eval φ Value} {advance : Eval φ Unit} {retain : Bool}
  {fuel count : Nat} {kept : Array Value} {m m' : Machine φ}

/-- Where the test holds and the loop may go on, its body is evaluated. -/
theorem mem_seen_repeatRounds (goes : outcome goesOn m = (.ok true, m))
    (may : outcome (Eval.checkpoint count) m = (.ok (), m)) :
    Round.of body m ∈ (repeatRounds goesOn body advance retain (fuel + 1) count kept).seen m := by
  rw [repeatRounds, seen_bind_ok _ goes, if_pos rfl, seen_bind_ok _ may]
  exact List.mem_append_right _ (List.mem_append_right _ (List.mem_append_left _ (by simp [round])))

/-- A round with a value, after which the loop moves on. -/
theorem goesOn_round {v : Value} {m'' : Machine φ} (goes : outcome goesOn m = (.ok true, m))
    (may : outcome (Eval.checkpoint count) m = (.ok (), m))
    (value : outcome body m = (.ok v, m')) (moves : outcome advance m' = (.ok (), m'')) :
    (repeatRounds goesOn body advance retain (fuel + 1) count kept).GoesOn m [.of body m]
      (repeatRounds goesOn body advance retain fuel (count + 1) (Eval.keep retain kept v)) m'' := by
  have passed : outcome (round body).act m = (.ok (.value v), m') := by
    rw [act_round, Eval.outcome_pass, value]
    rfl
  constructor
  · rw [repeatRounds, seen_bind_ok _ goes, if_pos rfl, seen_bind_ok _ may, seen_bind_ok _ passed]
    exact congrArg (Round.of body m :: ·) (seen_bind_ok _ moves)
  · rw [repeatRounds, act_bind, outcome_bind, act_quiet, goes]
    simp only [if_true, act_bind, outcome_bind, act_quiet, may, passed, goOn, moves]

/-- Where the test does not hold, the loop is over. -/
theorem repeatRounds_over (stops : outcome goesOn m = (.ok false, m)) :
    (repeatRounds goesOn body advance retain (fuel + 1) count kept).seen m = [] ∧
      outcome (repeatRounds goesOn body advance retain (fuel + 1) count kept).act m =
        (.ok kept, m) := by
  constructor
  · rw [repeatRounds, seen_bind_ok _ stops]
    rfl
  · rw [repeatRounds, act_bind, outcome_bind, act_quiet, stops]
    rfl

/-- Where the test holds, the loop makes another round or fails. -/
theorem repeatRounds_goes (goes : outcome goesOn m = (.ok true, m)) :
    (repeatRounds goesOn body advance retain (fuel + 1) count kept).seen m ≠ [] ∨
      ∃ exit after, outcome (repeatRounds goesOn body advance retain (fuel + 1) count kept).act m =
        (.error exit, after) := by
  have fails {exit : Exit} (asked : outcome (Eval.checkpoint count) m = (.error exit, m)) :
      ∃ exit after, outcome (repeatRounds goesOn body advance retain (fuel + 1) count kept).act m =
        (.error exit, after) := by
    refine ⟨exit, m, ?_⟩
    rw [repeatRounds, act_bind, outcome_bind, act_quiet, goes]
    simp only [if_true, act_bind, outcome_bind, act_quiet, asked]
  rcases checkpoint_cases count m with ⟨-, asked⟩ | ⟨-, limit, -, -, asked⟩ | ⟨-, -, asked⟩
  · exact .inr (fails asked)
  · exact .inr (fails asked)
  · exact .inl (List.ne_nil_of_mem (mem_seen_repeatRounds goes asked))

end Watched

/-! ## Loops of a program -/

/-- The test of a counting loop: its counter has not passed its bound. -/
def Eval.goesOnCounting (counter : String) (direction : Direction) (loc : Location)
    (bound : Eval φ Value) : Eval φ Bool := do
  let limit ← boundOf loc bound
  return inRange direction limit (← counterOf counter)

namespace Node

open Watched

variable (host : Host φ) (budget : Nat)

/-- Evaluates a node and watches for its rounds if it is a loop. The rounds of loops inside it are
not its own. -/
def watchRounds : Node → Watched (Round φ) φ Value
  | whileLoop loc condition body retain => Watched.locate loc do
    let goesOn : Eval φ Bool := return (← condition.eval host budget).truthy
    let kept ← repeatRounds goesOn (body.eval host budget) (return ()) retain budget 0 #[]
    quiet (Eval.loopValue retain kept)
  | countLoop loc counter start bound direction step body retain => Watched.locate loc <|
    Watched.withScope "for" do
      quiet (Eval.assign counter.item (← quiet (start.eval host budget)))
      let goesOn :=
        Eval.goesOnCounting counter.item direction bound.loc (bound.eval host budget)
      let advance := Eval.moveCounter counter.item direction step.loc (step.eval host budget)
      let kept ← repeatRounds goesOn (body.eval host budget) advance retain budget 0 #[]
      quiet (Eval.loopValue retain kept)
  | eachLoop loc target collection body retain => Watched.locate loc do
    let v ← quiet (collection.eval host budget)
    match ← quiet (Eval.observe fun m => m.world.heap.listItems? v) with
    | none => quiet (Eval.fail (.notIterable v.typeName))
    | some items =>
      Watched.withScope "for-of" do
        let kept ← forEachRounds (Eval.bindTarget target) (body.eval host budget) retain
          items.toList 0 #[]
        quiet (Eval.loopValue retain kept)
  | n => quiet (n.eval host budget)

/-- Watching a node for its rounds changes nothing about its evaluation. -/
@[simp] theorem act_watchRounds (n : Node) :
    (n.watchRounds host budget).act = n.eval host budget := by
  cases n with
  | whileLoop =>
    simp only [watchRounds, eval, act_locate, act_bind, act_repeatRounds, act_quiet]
    rfl
  | countLoop =>
    simp only [watchRounds, eval, act_locate, act_withScope, act_bind, act_repeatRounds, act_quiet]
    rfl
  | eachLoop =>
    rw [eval_eachLoop]
    simp only [watchRounds, act_locate, act_bind, act_quiet]
    congr 1
    refine bind_congr fun v => bind_congr fun found => ?_
    cases found with
    | none => rfl
    | some items => simp only [act_withScope, act_bind, act_quiet, act_forEachRounds]
  | _ => rfl

/-- The rounds that a loop makes on a machine, in turn. -/
def rounds (n : Node) (m : Machine φ) : List (Round φ) :=
  (n.watchRounds host budget).seen m

end Node

end Polyglot
