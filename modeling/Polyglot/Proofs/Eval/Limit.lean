import Polyglot.Proofs.Eval.Watching

/-!
# The limit of iterations

What is seen of a run tells how the limit bore on it. No activation of a loop evaluates its body
more often than the limit allows, and a run fails for its limit exactly if some activation was to
evaluate its body once more than that while the interpreter was not cancelled, unless a function of
the host itself failed in this way. Nor does a run with a limit ever stop for want of iterations,
provided that its loops may make more of them than the limit allows; where there are only loops
over elements, no limit is needed, for such a loop goes through the elements that the list had when
the loop began.
-/

namespace Polyglot

variable {φ α β δ : Type}

/-! ## Ends -/

/-- How a run ended, as far as the number of iterations is concerned. -/
inductive Ending
  /-- That number had nothing to do with it. -/
  | regular
  /-- It failed because some loop was at its limit. -/
  | overLimit
  /-- It stopped for want of iterations. -/
  | unfinished
deriving DecidableEq

/-- What a reason to stop says about it. -/
def Stop.ending : Stop → Ending
  | .failed e => if e.kind = .iterationLimit then .overLimit else .regular
  | .unfinished => .unfinished

/-- What an exit says about it. -/
def Exit.ending : Exit → Ending
  | .stopped stop => stop.ending
  | .breakLoop | .continueLoop | .returned _ => .regular

/-- The end of an action. -/
def endingOf : Except Exit α → Ending
  | .ok _ => .regular
  | .error exit => exit.ending

/-- The end of a program. -/
def programEnding : Except Stop α → Ending
  | .ok _ => .regular
  | .error stop => stop.ending

@[simp] theorem Stop.ending_eq_unfinished {stop : Stop} :
    stop.ending = .unfinished ↔ stop = .unfinished := by
  cases stop with
  | failed e => by_cases kind : e.kind = .iterationLimit <;> simp [ending, kind]
  | unfinished => simp [ending]

theorem programEnding_eq_unfinished {result : Except Stop α} :
    programEnding result = .unfinished ↔ result = .error .unfinished := by
  cases result <;> simp [programEnding]

theorem programEnding_eq_overLimit {result : Except Stop α} :
    programEnding result = .overLimit ↔
      ∃ e, result = .error (.failed e) ∧ e.kind = .iterationLimit := by
  rcases result with (e | _) | v
  · by_cases kind : e.kind = .iterationLimit <;> simp [programEnding, Stop.ending, kind]
  · simp [programEnding, Stop.ending]
  · simp [programEnding]

theorem endingOf_mapError_stopped (result : Except Stop α) :
    endingOf (result.mapError Exit.stopped) = programEnding result := by
  cases result <;> rfl

@[simp] theorem Exit.ending_located (loc : Location) (exit : Exit) :
    (exit.located loc).ending = exit.ending := by
  rcases exit with _ | _ | _ | (_ | _) <;> rfl

@[simp] theorem endingOf_mapError_located (loc : Location) (result : Except Exit α) :
    endingOf (result.mapError (Exit.located loc)) = endingOf result := by
  cases result with
  | ok a => rfl
  | error exit => exact exit.ending_located loc

@[simp] theorem endingOf_passResult (result : Except Exit Value) :
    endingOf (Eval.Pass.ofResult result) = endingOf result := by
  rcases result with (_ | _ | _ | _) | _ <;> rfl

/-! ## What is told by what is seen -/

/-- The body was evaluated as often as the limit allows and was to be evaluated once more, at a
moment at which the interpreter was not cancelled. -/
def Activation.Exceeds (limit : Nat) (a : Activation) : Prop :=
  a.bodies = limit ∧ a.attempts[limit]? = some false

/-- An activation at its limit, or a call that failed as such an activation does. -/
def Deed.Exceeds (limit : Nat) : Deed φ → Prop
  | .visit _ _ _ => False
  | .loop a => a.Exceeds limit
  | .call result => programEnding result = .overLimit

/-- What is seen of a run under a limit, and how the run ended: no activation went beyond the limit,
and the run failed for the limit exactly if that is to be seen. -/
structure Tells (limit : Nat) (seen : List (Deed φ)) (e : Ending) : Prop where
  bodies : ∀ a, .loop a ∈ seen → a.bodies ≤ limit
  exceeds : e = .overLimit ↔ ∃ d ∈ seen, d.Exceeds limit

theorem Tells.congr {limit : Nat} {seen seen' : List (Deed φ)} {e : Ending}
    (same : ∀ d, d ∈ seen ↔ d ∈ seen') (told : Tells limit seen e) : Tells limit seen' e := by
  refine ⟨fun a member => told.bodies a ((same _).2 member), ?_⟩
  rw [told.exceeds]
  simp only [same]

theorem tells_nil {limit : Nat} {e : Ending} (notOver : e ≠ .overLimit) :
    Tells limit ([] : List (Deed φ)) e :=
  ⟨by simp, by simp [notOver]⟩

theorem Tells.append {limit : Nat} {seen seen' : List (Deed φ)} {e : Ending}
    (first : Tells limit seen .regular) (rest : Tells limit seen' e) :
    Tells limit (seen ++ seen') e := by
  have nothing : ¬ ∃ d ∈ seen, d.Exceeds limit := by
    rw [← first.exceeds]
    simp
  refine ⟨fun a member => ?_, ?_⟩
  · rcases List.mem_append.1 member with member | member
    · exact first.bodies a member
    · exact rest.bodies a member
  · rw [rest.exceeds]
    simp only [List.mem_append, or_and_right, exists_or, nothing, false_or]

theorem Tells.visit {limit : Nat} {seen : List (Deed φ)} {e : Ending} (n : Node) (m : Machine φ)
    (result : Except Exit Value) (told : Tells limit seen e) :
    Tells limit (.visit n m result :: seen) e := by
  refine ⟨fun a member => ?_, ?_⟩
  · exact told.bodies a (by simpa using member)
  · rw [told.exceeds]
    simp only [List.mem_cons, or_and_right, exists_or, exists_eq_left, Deed.Exceeds, false_or]

/-! ## Loops under way -/

/-- A loop that has made `count` iterations, none of which was begun on a cancelled interpreter. -/
def Activation.after (count : Nat) : Activation :=
  ⟨List.replicate count false, count⟩

/-- A loop that has made `count` iterations and is about to begin another one. -/
def Activation.begun (count : Nat) : Activation :=
  ⟨List.replicate count false ++ [false], count⟩

theorem Activation.after_add_attempt (count : Nat) :
    (after count).add (.attempt false : Mark φ) = begun count := rfl

theorem Activation.begun_add_body (count : Nat) :
    (begun count).add (.body : Mark φ) = after (count + 1) := by
  simp [begun, after, add, List.replicate_succ']

/-- An activation that has room for further iterations. -/
structure Activation.Open (limit : Nat) (a : Activation) : Prop where
  attempts : a.attempts.length ≤ limit
  bodies : a.bodies ≤ limit

theorem Activation.open_after {limit count : Nat} (within : count ≤ limit) :
    (after count).Open limit :=
  ⟨by simpa [after] using within, within⟩

theorem Activation.open_begun {limit count : Nat} (within : count < limit) :
    (begun count).Open limit :=
  ⟨by simpa [begun, Nat.succ_le_iff] using within, Nat.le_of_lt within⟩

theorem Activation.Open.tells {limit : Nat} {a : Activation} (room : a.Open limit) :
    Tells limit [(.loop a : Deed φ)] .regular := by
  have notExceeding : ¬ a.Exceeds limit := by
    rintro ⟨-, denied⟩
    rw [List.getElem?_eq_none room.attempts] at denied
    cases denied
  refine ⟨fun b member => ?_, by simpa [Deed.Exceeds] using notExceeding⟩
  obtain rfl : b = a := by simpa using member
  exact room.bodies

/-- What was seen of a run since the loop at hand was as `a` says. -/
def LoopTells (a : Activation) (limit : Nat) (seen : List (Mark φ)) (e : Ending) : Prop :=
  Tells limit (.loop (seen.foldl Activation.add a) :: seen.filterMap Mark.deed?) e

theorem foldl_add_inner (a : Activation) (seen : List (Deed φ)) :
    (seen.map Mark.inner).foldl Activation.add a = a := by
  induction seen with
  | nil => rfl
  | cons d seen ih => exact ih

theorem filterMap_deed_inner (seen : List (Deed φ)) :
    (seen.map Mark.inner).filterMap Mark.deed? = seen := by
  rw [List.filterMap_map]
  exact List.filterMap_some

/-- What is seen of a part of the loop says nothing about the loop. -/
theorem Tells.loop {limit : Nat} {a : Activation} {seen : List (Deed φ)} {e : Ending}
    (room : a.Open limit) (told : Tells limit seen e) : LoopTells a limit (seen.map .inner) e := by
  rw [LoopTells, foldl_add_inner, filterMap_deed_inner]
  exact room.tells.append told

theorem Tells.loop_append {limit : Nat} {a : Activation} {seen : List (Deed φ)}
    {marks : List (Mark φ)} {e : Ending} (first : Tells limit seen .regular) (rest : LoopTells a limit marks e) :
    LoopTells a limit (seen.map .inner ++ marks) e := by
  rw [LoopTells, List.foldl_append, foldl_add_inner, List.filterMap_append, filterMap_deed_inner]
  refine (first.append rest).congr fun d => ?_
  simp only [List.mem_append, List.mem_cons]
  exact or_left_comm

/-- A loop that is stopped because the interpreter is cancelled is not at its limit. -/
theorem loopTells_cancelled {limit count : Nat} (within : count ≤ limit) :
    LoopTells (.after count) limit [(.attempt true : Mark φ)] .regular := by
  refine ⟨fun a member => ?_, ?_⟩
  · obtain rfl : a = (Activation.after count).add (.attempt true : Mark φ) := by
      simpa [Mark.deed?] using member
    exact within
  · have notExceeding :
        ¬ ((Activation.after count).add (.attempt true : Mark φ)).Exceeds limit := by
      rintro ⟨full, denied⟩
      obtain rfl : count = limit := full
      simp [Activation.after, Activation.add] at denied
    simpa [Mark.deed?, Deed.Exceeds] using notExceeding

/-- A loop that has made all the iterations it may make and is to make another one is at its
limit. -/
theorem loopTells_denied (limit : Nat) :
    LoopTells (.after limit) limit [(.attempt false : Mark φ)] .overLimit := by
  refine ⟨fun a member => ?_, ?_⟩
  · obtain rfl : a = Activation.begun limit := by
      simpa [Mark.deed?, Activation.after_add_attempt] using member
    exact Nat.le_refl limit
  · have exceeding : (Activation.begun limit).Exceeds limit := ⟨rfl, by simp [Activation.begun]⟩
    exact iff_of_true rfl ⟨_, List.mem_cons_self, exceeding⟩

/-! ## Actions under a limit -/

/-- The limit of the interpreter, if one is given. -/
def Machine.Limited (bound : Option Nat) (m : Machine φ) : Prop :=
  ∀ limit ∈ bound, m.self.config.maxIterations = some limit

/-- On machines with the limit an action leaves it as it is, does not stop for want of iterations,
and what is seen of it tells how it ended in the sense of `J`. -/
def Obeys (bound : Option Nat) (J : Nat → List δ → Ending → Prop) (w : Watched δ φ α) : Prop :=
  ∀ m : Machine φ, m.Limited bound →
    (outcome w.act m).2.Limited bound ∧ endingOf (outcome w.act m).1 ≠ .unfinished ∧
      ∀ limit ∈ bound, J limit (w.seen m) (endingOf (outcome w.act m).1)

namespace Obeys

variable {bound : Option Nat} {J : Nat → List δ → Ending → Prop}

/-- An action and then another: either the first ends the whole, or what is seen of the second comes
after what is seen of the first. -/
theorem bind {w : Watched δ φ α} {next : α → Watched δ φ β}
    (ends : ∀ m m' exit, m.Limited bound → outcome w.act m = (.error exit, m') →
      m'.Limited bound ∧ exit.ending ≠ .unfinished ∧
        ∀ limit ∈ bound, J limit (w.seen m) exit.ending)
    (rest : ∀ m m' a, m.Limited bound → outcome w.act m = (.ok a, m') →
      m'.Limited bound ∧ Obeys bound (fun limit seen => J limit (w.seen m ++ seen)) (next a)) :
    Obeys bound J (w >>= next) := by
  intro m limited
  rw [Watched.act_bind, outcome_bind]
  rcases result : outcome w.act m with ⟨exit | a, m'⟩
  · rw [Watched.seen_bind_error next result]
    exact ends m m' exit limited result
  · rw [Watched.seen_bind_ok next result]
    obtain ⟨limited', obeys⟩ := rest m m' a limited result
    exact obeys m' limited'

theorem mono {K : Nat → List δ → Ending → Prop} {w : Watched δ φ α}
    (stronger : ∀ limit ∈ bound, ∀ seen e, K limit seen e → J limit seen e)
    (obeys : Obeys bound K w) : Obeys bound J w := by
  intro m limited
  obtain ⟨limited', finished, told⟩ := obeys m limited
  exact ⟨limited', finished, fun limit given => stronger limit given _ _ (told limit given)⟩

end Obeys

/-- An action obeys the limit, and what is seen of it tells how it ended. -/
abbrev Bounded (bound : Option Nat) (w : Watched (Deed φ) φ α) : Prop :=
  Obeys bound Tells w

/-! ## Steps -/

/-- An action that does not cancel the interpreter nor take that back, and that neither changes the
limit nor has anything to do with it. -/
structure Calm (act : Eval φ α) : Prop where
  cancelled : ∀ m, (outcome act m).2.self.cancelled = m.self.cancelled
  limit : ∀ m, (outcome act m).2.self.config.maxIterations = m.self.config.maxIterations
  regular : ∀ m, endingOf (outcome act m).1 = .regular

namespace Calm

theorem bind {act : Eval φ α} {next : α → Eval φ β} (first : Calm act)
    (rest : ∀ a, Calm (next a)) : Calm (act >>= next) := by
  refine ⟨fun m => ?_, fun m => ?_, fun m => ?_⟩
  · have step := first.cancelled m
    rw [outcome_bind]
    rcases result : outcome act m with ⟨exit | a, m'⟩ <;> rw [result] at step
    · exact step
    · exact ((rest a).cancelled m').trans step
  · have step := first.limit m
    rw [outcome_bind]
    rcases result : outcome act m with ⟨exit | a, m'⟩ <;> rw [result] at step
    · exact step
    · exact ((rest a).limit m').trans step
  · have step := first.regular m
    rw [outcome_bind]
    rcases result : outcome act m with ⟨exit | a, m'⟩ <;> rw [result] at step
    · exact step
    · exact (rest a).regular m'

theorem locate {act : Eval φ α} (loc : Location) (inner : Calm act) :
    Calm (Eval.locate loc act) := by
  refine ⟨fun m => ?_, fun m => ?_, fun m => ?_⟩
  · rw [Eval.outcome_locate]
    exact inner.cancelled m
  · rw [Eval.outcome_locate]
    exact inner.limit m
  · rw [Eval.outcome_locate, endingOf_mapError_located]
    exact inner.regular m

/-- An action that changes neither the settings nor the flag, and that has no end of its own. -/
theorem of_self {act : Eval φ α} (kept : ∀ m, (outcome act m).2.self.config = m.self.config ∧
    (outcome act m).2.self.cancelled = m.self.cancelled)
    (regular : ∀ m, endingOf (outcome act m).1 = .regular) : Calm act :=
  ⟨fun m => (kept m).2, fun m => congrArg Config.maxIterations (kept m).1, regular⟩

theorem fail (fault : RuntimeFault) (other : fault.kind ≠ .iterationLimit) :
    Calm (Eval.fail fault : Eval φ α) :=
  .of_self (fun _ => ⟨rfl, rfl⟩) fun _ => if_neg other

theorem indexSet (owner key value : Value) :
    Calm (Eval.indexSet owner key value : Eval φ Unit) := by
  refine .of_self (fun m => ?_) fun m => ?_
  · rw [Eval.outcome_indexSet]
    cases m.world.heap.indexSet owner key value <;> exact ⟨rfl, rfl⟩
  · rw [Eval.outcome_indexSet]
    cases written : m.world.heap.indexSet owner key value with
    | error fault => exact if_neg (FaultKind.ne_of_ofValues (Heap.kind_of_indexSet written) rfl)
    | ok heap => rfl

/-- Steps that only read, write and compute are calm. -/
theorem steps : Steps id (fun _ {_} (act _ : Eval φ _) => Calm act) where
  pure _ _ _ := .of_self (fun _ => ⟨rfl, rfl⟩) fun _ => rfl
  bind := bind
  observe _ _ _ _ := .of_self (fun _ => ⟨rfl, rfl⟩) fun _ => rfl
  fail _ _ fault values := fail fault (FaultKind.ne_of_ofValues values rfl)
  locate loc inner := inner.locate loc
  assign _ _ _ := .of_self (fun _ => ⟨rfl, rfl⟩) fun _ => rfl
  newList _ _ := .of_self (fun _ => ⟨rfl, rfl⟩) fun _ => rfl

theorem boundOf (loc : Location) (v : Value) :
    Calm (Eval.boundOf loc (Pure.pure v) : Eval φ Float) :=
  @Steps.boundOf φ id _ steps .anywhere (Pure.pure v) (Pure.pure v) loc (steps.pure .anywhere v)

theorem moveCounter (name : String) (direction : Direction) (loc : Location) (v : Value) :
    Calm (Eval.moveCounter name direction loc (Pure.pure v) : Eval φ Unit) :=
  @Steps.moveCounter φ id _ steps .anywhere (Pure.pure v) (Pure.pure v) name direction loc
    (steps.pure .anywhere v)

end Calm

namespace Bounded

variable {bound : Option Nat}

theorem quiet {act : Eval φ α} (calm : Calm act) : Bounded bound (.quiet act) := by
  intro m limited
  rw [Watched.act_quiet, calm.regular m]
  exact ⟨fun limit given => (calm.limit m).trans (limited limit given), by simp,
    fun _ _ => tells_nil (by simp)⟩

theorem pure (a : α) : Bounded bound (Pure.pure a : Watched (Deed φ) φ α) :=
  quiet (Calm.steps.pure .anywhere a)

theorem bind {w : Watched (Deed φ) φ α} {next : α → Watched (Deed φ) φ β} (first : Bounded bound w)
    (rest : ∀ a, Bounded bound (next a)) : Bounded bound (w >>= next) := by
  refine Obeys.bind (fun m m' exit limited ended => ?_) fun m m' a limited ended => ?_
  · have step := first m limited
    rw [ended] at step
    exact step
  · have step := first m limited
    rw [ended] at step
    obtain ⟨limited', -, told⟩ := step
    exact ⟨limited', (rest a).mono fun limit given _ _ => (told limit given).append⟩

theorem visit {w : Watched (Deed φ) φ Value} (n : Node) (inner : Bounded bound w) :
    Bounded bound (w.visit n) := by
  intro m limited
  rw [Watched.act_visit, Eval.outcome_locate, endingOf_mapError_located]
  obtain ⟨limited', finished, told⟩ := inner m limited
  exact ⟨limited', finished, fun limit given => (told limit given).visit n m _⟩

theorem withScope {w : Watched (Deed φ) φ α} (name : String) (inner : Bounded bound w) :
    Bounded bound (w.withScope name) := by
  intro m limited
  rw [Watched.act_withScope, Eval.outcome_withScope]
  exact inner (m.pushScope name) limited

theorem loop {w : Watched (Mark φ) φ α} (obeys : Obeys bound (LoopTells {}) w) :
    Bounded bound w.loop :=
  obeys

end Bounded

/-! ## Loops -/

/-- What a loop asks before an iteration: it stops if it is cancelled, and else if it is at its
limit. -/
theorem checkpoint_cases (count : Nat) (m : Machine φ) :
    (m.self.cancelled = true ∧ outcome (Eval.checkpoint count) m =
      (.error (.stopped (.failed { fault := .cancelled })), m)) ∨
    (m.self.cancelled = false ∧ ∃ limit, m.self.config.maxIterations = some limit ∧
      limit ≤ count ∧ outcome (Eval.checkpoint count) m =
        (.error (.stopped (.failed { fault := .iterationLimit limit })), m)) ∨
    (m.self.cancelled = false ∧ (∀ limit, m.self.config.maxIterations = some limit →
      count < limit) ∧ outcome (Eval.checkpoint count) m = (.ok (), m)) := by
  rw [Eval.checkpoint_eq, outcome_bind, Eval.outcome_observe]
  dsimp only
  cases m.self.cancelled with
  | true => exact .inl ⟨rfl, rfl⟩
  | false =>
    cases m.self.config.maxIterations with
    | none => exact .inr (.inr ⟨rfl, by simp, rfl⟩)
    | some limit =>
      by_cases reached : limit ≤ count
      · refine .inr (.inl ⟨rfl, limit, rfl, reached, ?_⟩)
        simp [reached]
      · refine .inr (.inr ⟨rfl, fun _ given => ?_, ?_⟩)
        · cases given
          omega
        · simp [reached]

namespace Obeys

variable {bound : Option Nat}

theorem pureLoop {a : Activation} (room : ∀ limit ∈ bound, a.Open limit) (x : α) :
    Obeys bound (LoopTells a) (Pure.pure x : Watched (Mark φ) φ α) :=
  fun _ limited => ⟨limited, by simp [endingOf], fun limit given => (room limit given).tells⟩

/-- A part of a loop that is not the loop itself, and the rest of the loop. -/
theorem inner {a : Activation} (room : ∀ limit ∈ bound, a.Open limit) {w : Watched (Deed φ) φ α}
    {next : α → Watched (Mark φ) φ β} (part : Bounded bound w)
    (rest : ∀ x, Obeys bound (LoopTells a) (next x)) :
    Obeys bound (LoopTells a) (w.inner >>= next) := by
  refine Obeys.bind (fun m m' exit limited ended => ?_) fun m m' x limited ended => ?_
  · have step := part m limited
    rw [Watched.act_inner] at ended
    rw [ended] at step
    obtain ⟨limited', finished, told⟩ := step
    exact ⟨limited', finished, fun limit given => (told limit given).loop (room limit given)⟩
  · have step := part m limited
    rw [Watched.act_inner] at ended
    rw [ended] at step
    obtain ⟨limited', -, told⟩ := step
    exact ⟨limited', (rest x).mono fun limit given _ _ => (told limit given).loop_append⟩

/-- The loop goes on only if it has made fewer iterations than the limit allows. -/
theorem attempt {count : Nat} (within : ∀ limit ∈ bound, count ≤ limit)
    {next : Unit → Watched (Mark φ) φ β}
    (rest : (∀ limit ∈ bound, count < limit) → Obeys bound (LoopTells (.begun count)) (next ())) :
    Obeys bound (LoopTells (.after count)) (Watched.attempt count >>= next) := by
  refine Obeys.bind (fun m m' exit limited ended => ?_) fun m m' _ limited ended => ?_
  · rw [Watched.act_attempt] at ended
    obtain ⟨flag, asked⟩ | ⟨flag, limit', given', reached, asked⟩ | ⟨-, -, asked⟩ :=
      checkpoint_cases count m
    · rw [asked] at ended
      cases ended
      refine ⟨limited, by simp [Exit.ending], fun limit given => ?_⟩
      have cancelled := @loopTells_cancelled φ _ _ (within limit given)
      rwa [← flag] at cancelled
    · rw [asked] at ended
      cases ended
      refine ⟨limited, by simp [Exit.ending], fun limit given => ?_⟩
      -- The limit that was asked for is the one given, and the count cannot be above it.
      have same : limit' = limit := by simpa [given'] using limited limit given
      have atMost := within limit given
      obtain rfl : count = limit := by omega
      have denied := @loopTells_denied φ count
      rwa [← flag] at denied
    · rw [asked] at ended
      cases ended
  · rw [Watched.act_attempt] at ended
    obtain ⟨-, asked⟩ | ⟨-, _, -, -, asked⟩ | ⟨flag, fewer, asked⟩ := checkpoint_cases count m
    · rw [asked] at ended
      cases ended
    · rw [asked] at ended
      cases ended
    · rw [asked] at ended
      cases ended
      refine ⟨limited, ?_⟩
      have obeys := rest fun limit given => fewer limit (limited limit given)
      refine obeys.mono fun limit _ seen e told => ?_
      show LoopTells (.after count) limit (.attempt m.self.cancelled :: seen) e
      rw [flag]
      exact told

/-- The body is evaluated, which makes one more iteration. -/
theorem pass {count : Nat} (within : ∀ limit ∈ bound, count < limit)
    {body : Watched (Deed φ) φ Value} {next : Eval.Pass → Watched (Mark φ) φ β}
    (inner : Bounded bound body)
    (rest : ∀ ended, Obeys bound (LoopTells (.after (count + 1))) (next ended)) :
    Obeys bound (LoopTells (.begun count)) (body.pass >>= next) := by
  have marked : ∀ limit (seen : List (Mark φ)) e, LoopTells (.after (count + 1)) limit seen e →
      LoopTells (.begun count) limit (.body :: seen) e := by
    intro limit seen e told
    rw [← @Activation.begun_add_body φ] at told
    exact told
  -- Seen from the loop, an iteration ends as its body does.
  have ends (m : Machine φ) (limited : m.Limited bound) := inner m limited
  simp only [← endingOf_passResult] at ends
  refine Obeys.bind (fun m m' exit limited ended => ?_) fun m m' x limited ended => ?_
  · rw [Watched.act_pass, Eval.outcome_pass] at ended
    obtain ⟨result, rfl⟩ := Prod.mk.inj ended
    obtain ⟨limited', finished, told⟩ := ends m limited
    rw [result] at finished told
    refine ⟨limited', finished, fun limit given => marked _ _ _ ?_⟩
    exact (told limit given).loop (Activation.open_after (within limit given))
  · rw [Watched.act_pass, Eval.outcome_pass] at ended
    obtain ⟨result, rfl⟩ := Prod.mk.inj ended
    obtain ⟨limited', -, told⟩ := ends m limited
    rw [result] at told
    refine ⟨limited', (rest x).mono fun limit given _ _ after => marked _ _ _ ?_⟩
    exact (told limit given).loop_append after

/-- A loop that may make more iterations than the limit allows does not run out of them. -/
theorem repeatWhile {limit : Nat} (given : limit ∈ bound) {goesOn : Watched (Deed φ) φ Bool}
    {body : Watched (Deed φ) φ Value} {advance : Watched (Deed φ) φ Unit}
    (test : Bounded bound goesOn) (inner : Bounded bound body) (move : Bounded bound advance)
    (retain : Bool) (fuel : Nat) : ∀ count kept, count ≤ limit → limit < count + fuel →
      Obeys bound (LoopTells (.after count))
        (Watched.repeatWhile goesOn body advance retain fuel count kept) := by
  obtain rfl : bound = some limit := given
  induction fuel with
  | zero =>
    intro count kept within enough
    omega
  | succ fuel ih =>
    intro count kept within enough
    have room : ∀ l ∈ some limit, (Activation.after count).Open l := by
      rintro _ ⟨⟩
      exact Activation.open_after within
    refine Obeys.inner room test fun goes => ?_
    cases goes with
    | false => exact Obeys.pureLoop room kept
    | true =>
      refine Obeys.attempt (by rintro _ ⟨⟩; exact within) fun fewer => ?_
      have further : count + 1 ≤ limit := fewer limit rfl
      have room' : ∀ l ∈ some limit, (Activation.after (count + 1)).Open l := by
        rintro _ ⟨⟩
        exact Activation.open_after further
      refine Obeys.pass fewer inner fun ended => ?_
      cases ended with
      | leave => exact Obeys.pureLoop room' kept
      | next => exact Obeys.inner room' move fun _ => ih _ _ further (by omega)
      | value v => exact Obeys.inner room' move fun _ => ih _ _ further (by omega)

/-- A loop over elements goes through them one by one, whatever its body does. -/
theorem forEach {bind : Value → Watched (Deed φ) φ Unit} {body : Watched (Deed φ) φ Value}
    (binding : ∀ item, Bounded bound (bind item)) (inner : Bounded bound body) (retain : Bool)
    (items : List Value) : ∀ count kept, (∀ limit ∈ bound, count ≤ limit) →
      Obeys bound (LoopTells (.after count))
        (Watched.forEach bind body retain items count kept) := by
  induction items with
  | nil =>
    intro count kept within
    exact Obeys.pureLoop (fun limit given => Activation.open_after (within limit given)) kept
  | cons item items ih =>
    intro count kept within
    refine Obeys.attempt within fun fewer => ?_
    refine Obeys.inner (fun limit given => Activation.open_begun (fewer limit given))
      (binding item) fun _ => Obeys.pass fewer inner fun ended => ?_
    cases ended with
    | leave =>
      exact Obeys.pureLoop (fun limit given => Activation.open_after (fewer limit given)) kept
    | next => exact ih _ _ fewer
    | value v => exact ih _ _ fewer

end Obeys

end Polyglot
