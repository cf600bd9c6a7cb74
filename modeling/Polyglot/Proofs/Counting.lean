import Polyglot.Proofs.Eval.Rounds
import Polyglot.Proofs.Names
import Polyglot.Proofs.Value.Rounding

/-!
# Counting loops

A counting loop goes through the integers from its first value to its bound in steps, as long as its
body leaves the counter alone. It does so up to the bound without exception. Whether it also stops
there depends on the first value past the bound: the test compares doubles, and the counter wraps
around. The loop ends with the right number of rounds exactly if that value fits 64 bits and its
double is past that of the bound.
-/

namespace Polyglot

variable {φ : Type}

/-! ## The values of a counter -/

namespace Direction

/-- The value after some steps, as an integer without bounds. -/
def valueAfter (direction : Direction) (first step : Int) (k : Nat) : Int :=
  match direction with
  | up => first + k * step
  | down => first - k * step

/-- How many values there are from the first one to the last, both included. -/
def count (direction : Direction) (first last step : Int) : Nat :=
  match direction with
  | up => ((last - first) / step + 1).toNat
  | down => ((first - last) / step + 1).toNat

/-- The value is not past the last one. -/
def Within (direction : Direction) (last value : Int) : Prop :=
  match direction with
  | up => value ≤ last
  | down => last ≤ value

/-- The next value, which may wrap around. -/
def move (direction : Direction) (value step : Int64) : Int64 :=
  match direction with
  | up => value + step
  | down => value - step

variable {direction : Direction} {first last step : Int}

theorem valueAfter_zero : direction.valueAfter first step 0 = first := by
  cases direction <;> simp [valueAfter]

theorem move_valueAfter (step : Int64) (k : Nat) :
    direction.move (Int64.ofInt (direction.valueAfter first step.toInt k)) step =
      Int64.ofInt (direction.valueAfter first step.toInt (k + 1)) := by
  cases direction with
  | up =>
    have next : first + (k + 1 : Nat) * step.toInt = first + k * step.toInt + step.toInt := by
      push_cast
      ring
    rw [move, valueAfter, valueAfter, next, Int64.ofInt_add _ step.toInt, Int64.ofInt_toInt]
  | down =>
    have next : first - (k + 1 : Nat) * step.toInt = first - k * step.toInt - step.toInt := by
      push_cast
      ring
    rw [move, valueAfter, valueAfter, next, Int64.ofInt_sub _ step.toInt, Int64.ofInt_toInt]

/-- The values up to the last one are those that are counted. -/
theorem within_iff (forward : 1 ≤ step) (k : Nat) :
    direction.Within last (direction.valueAfter first step k) ↔
      k < direction.count first last step := by
  have positive : 0 < step := by omega
  cases direction with
  | up =>
    have bound : (k : Int) ≤ (last - first) / step ↔ k * step ≤ last - first :=
      Int.le_ediv_iff_mul_le positive
    simp only [Within, valueAfter, count]
    omega
  | down =>
    have bound : (k : Int) ≤ (first - last) / step ↔ k * step ≤ first - last :=
      Int.le_ediv_iff_mul_le positive
    simp only [Within, valueAfter, count]
    omega

end Direction

/-! ## One round -/

/-- On every machine the node has the value and does nothing else. -/
def Node.Yields (host : Host φ) (budget : Nat) (n : Node) (v : Value) : Prop :=
  ∀ m, outcome (n.eval host budget) m = (.ok v, m)

/-- The interpreter lets its loops make that many rounds. -/
structure Machine.Allows (m : Machine φ) (count : Nat) : Prop where
  running : m.self.cancelled = false
  limit : ∀ limit ∈ m.self.config.maxIterations, count ≤ limit

/-- The round ended with a value, left the counter as it was and the interpreter as it has to be for
that many rounds. -/
structure Round.Steady (counter : String) (count : Nat) (r : Round φ) : Prop where
  ended : ∃ v, r.result = .ok v
  counter : r.after.get? counter = r.before.get? counter
  allows : r.after.Allows count

theorem Machine.Allows.checkpoint {m : Machine φ} {count k : Nat} (allows : m.Allows count)
    (below : k < count) : outcome (Eval.checkpoint k) m = (.ok (), m) := by
  rcases checkpoint_cases k m with ⟨cancelled, -⟩ | ⟨-, limit, limited, reached, -⟩ | ⟨-, -, asked⟩
  · rw [allows.running] at cancelled
    cases cancelled
  · have enough := allows.limit limit limited
    omega
  · exact asked

namespace Eval

variable {counter : String} {direction : Direction} {loc : Location} {m : Machine φ}

theorem outcome_goesOnCounting {bound : Eval φ Value} {last current : Int64}
    (bounds : outcome bound m = (.ok (.int last), m))
    (counts : m.get? counter = some (.int current)) :
    outcome (goesOnCounting counter direction loc bound) m =
      (.ok (inRange direction (Binary64.ofInt last.toInt) (Binary64.ofInt current.toInt)), m) := by
  simp only [goesOnCounting, boundOf, counterOf, lookup, outcome_bind, bounds, outcome_get,
    Value.toFloat?, outcome_pure, counts, Option.getD_some]

theorem outcome_moveCounter {stepping : Eval φ Value} {step current : Int64}
    (steps : outcome stepping m = (.ok (.int step), m))
    (counts : m.get? counter = some (.int current)) :
    outcome (moveCounter counter direction loc stepping) m =
      (.ok (), m.assign counter (.int (direction.move current step))) := by
  rw [moveCounter_eq]
  simp only [outcome_bind, steps, Value.isNumber, if_true, lookup, outcome_get, outcome_pure,
    counts, Option.getD_some, binary]
  cases direction <;> rfl

end Eval

/-! ## Counting up to the bound -/

/-- A value that is not past the bound is not past it after rounding. -/
theorem Eval.inRange_of_within {direction : Direction} {last value : Int} (fits : FitsInt64 last)
    (fits' : FitsInt64 value) (within : direction.Within last value) :
    inRange direction (Binary64.ofInt last) (Binary64.ofInt value) = true := by
  cases direction with
  | up => exact decide_eq_true (Binary64.ofInt_mono fits' fits within)
  | down => exact decide_eq_true (Binary64.ofInt_mono fits fits' within)

/-- The values that are counted lie between two integers of 64 bits. -/
theorem Direction.fits_valueAfter {direction : Direction} {first last step : Int64}
    (forward : 1 ≤ step.toInt) {k : Nat}
    (below : k < direction.count first.toInt last.toInt step.toInt) :
    FitsInt64 (direction.valueAfter first.toInt step.toInt k) := by
  have within := (Direction.within_iff forward k).2 below
  have start := fitsInt64_toInt first
  have stop := fitsInt64_toInt last
  have ahead : 0 ≤ (k : Int) * step.toInt := by positivity
  unfold FitsInt64 at *
  cases direction <;> simp only [Within, valueAfter] at * <;> omega

/-- The parts of a counting loop whose counter has its first value. -/
structure CountingLoop (φ : Type) where
  counter : String
  direction : Direction
  boundLoc : Location
  bound : Eval φ Value
  stepLoc : Location
  step : Eval φ Value
  body : Eval φ Value
  retain : Bool

namespace CountingLoop

/-- The rounds of the loop after `count` of them. -/
def onwards (l : CountingLoop φ) (fuel count : Nat) (kept : Array Value) :
    Watched (Round φ) φ (Array Value) :=
  .repeatRounds (Eval.goesOnCounting l.counter l.direction l.boundLoc l.bound) l.body
    (Eval.moveCounter l.counter l.direction l.stepLoc l.step) l.retain fuel count kept

/-- Bound and step of the loop are integers that do not change, and the step is at least one. -/
structure Counts (l : CountingLoop φ) (last step : Int64) : Prop where
  bounds : ∀ m, outcome l.bound m = (.ok (.int last), m)
  steps : ∀ m, outcome l.step m = (.ok (.int step), m)
  forward : 1 ≤ step.toInt

/-- How many rounds the loop has to make. -/
def total (l : CountingLoop φ) (first last step : Int64) : Nat :=
  l.direction.count first.toInt last.toInt step.toInt

/-- The value of the counter after `k` rounds; it wraps around. -/
def counterAfter (l : CountingLoop φ) (first step : Int64) (k : Nat) : Int64 :=
  Int64.ofInt (l.direction.valueAfter first.toInt step.toInt k)

/-- The loop has made `k` rounds and may make all that it has to. -/
structure At (l : CountingLoop φ) (first last step : Int64) (k : Nat) (m : Machine φ) : Prop where
  counter : m.get? l.counter = some (.int (l.counterAfter first step k))
  allows : m.Allows (l.total first last step)

variable {l : CountingLoop φ} {first last step : Int64} {fuel k : Nat} {kept : Array Value}
  {m : Machine φ}

/-- What the test of the loop comes to. -/
theorem At.test (counts : l.Counts last step) (here : l.At first last step k m) :
    outcome (Eval.goesOnCounting l.counter l.direction l.boundLoc l.bound) m =
      (.ok (Eval.inRange l.direction (Binary64.ofInt last.toInt)
        (Binary64.ofInt (l.counterAfter first step k).toInt)), m) :=
  Eval.outcome_goesOnCounting (counts.bounds m) here.counter

/-- Before it comes to its bound the loop makes a steady round, with the counter at the value it has
to have, and moves on to the next. -/
theorem At.next (counts : l.Counts last step) (here : l.At first last step k m)
    (below : k < l.total first last step)
    (steady : ∀ r ∈ (l.onwards (fuel + 1) k kept).seen m,
      r.Steady l.counter (l.total first last step)) :
    ∃ m' kept',
      (l.onwards (fuel + 1) k kept).GoesOn m [.of l.body m] (l.onwards fuel (k + 1) kept') m' ∧
        l.At first last step (k + 1) m' := by
  have fits := Direction.fits_valueAfter counts.forward below
  have within := (Direction.within_iff counts.forward k).2 below
  have goes := here.test counts
  rw [counterAfter, fits.toInt_ofInt,
    Eval.inRange_of_within (fitsInt64_toInt last) fits within] at goes
  have may := here.allows.checkpoint below
  obtain ⟨⟨v, ended⟩, same, still⟩ := steady _ (Watched.mem_seen_repeatRounds goes may)
  have counter : (outcome l.body m).2.get? l.counter = some (.int (l.counterAfter first step k)) :=
    same.trans here.counter
  have moves : outcome (Eval.moveCounter l.counter l.direction l.stepLoc l.step) _ = _ :=
    Eval.outcome_moveCounter (counts.steps (outcome l.body m).2) counter
  refine ⟨_, _, Watched.goesOn_round goes may (Prod.ext ended rfl) moves, ?_,
    ⟨still.running, still.limit⟩⟩
  rw [Machine.get?_assign_of_bound counter, counterAfter, Direction.move_valueAfter]
  rfl

/-- The loop makes all the rounds that it has to, with the counter at one value after the other. -/
theorem At.run (counts : l.Counts last step) {rest : Nat} (here : l.At first last step k m)
    (whole : k + rest = l.total first last step)
    (steady : ∀ r ∈ (l.onwards (fuel + rest) k kept).seen m,
      r.Steady l.counter (l.total first last step)) :
    ∃ (rounds : List (Round φ)) (m' : Machine φ) (kept' : Array Value), rounds.length = rest ∧
      (∀ (i : Nat) (r : Round φ), rounds[i]? = some r →
        r.before.get? l.counter = some (.int (l.counterAfter first step (k + i)))) ∧
      (l.onwards (fuel + rest) k kept).GoesOn m rounds
        (l.onwards fuel (l.total first last step) kept') m' ∧
      l.At first last step (l.total first last step) m' := by
  induction rest generalizing k kept m with
  | zero =>
    obtain rfl : k = l.total first last step := whole
    exact ⟨[], m, kept, rfl, by simp, .refl _ _, here⟩
  | succ rest ih =>
    rw [← Nat.add_assoc] at steady ⊢
    obtain ⟨m₁, kept₁, onward, next⟩ := here.next counts (by omega) steady
    have later : ∀ r ∈ (l.onwards (fuel + rest) (k + 1) kept₁).seen m₁,
        r.Steady l.counter (l.total first last step) := by
      intro r member
      refine steady r ?_
      rw [onward.seen]
      exact List.mem_append_right _ member
    obtain ⟨rounds, m', kept', size, values, goesOn, there⟩ := ih next (by omega) later
    refine ⟨.of l.body m :: rounds, m', kept', by simp [size], ?_, onward.trans goesOn, there⟩
    intro i r found
    cases i with
    | zero =>
      cases found
      exact here.counter
    | succ i =>
      have value := values i r found
      have position : k + 1 + i = k + (i + 1) := by omega
      rwa [position] at value

/-! ## Past the bound -/

/-- The first value past the bound, as an integer without bounds. -/
def past (l : CountingLoop φ) (first last step : Int64) : Int :=
  l.direction.valueAfter first.toInt step.toInt (l.total first last step)

/-- The loop comes to its end there: the first value past the bound fits 64 bits, and its double is
past that of the bound. -/
def StopsPast (l : CountingLoop φ) (first last step : Int64) : Prop :=
  FitsInt64 (l.past first last step) ∧
    Eval.inRange l.direction (Binary64.ofInt last.toInt)
      (Binary64.ofInt (l.past first last step)) = false

/-- An integer just above 64 bits comes round from below. -/
theorem toInt_ofInt_above {n : Int} (above : 9223372036854775808 ≤ n)
    (near : n < 27670116110564327424) : (Int64.ofInt n).toInt = n - 18446744073709551616 := by
  have size : (Int64.size : Int) = 18446744073709551616 := rfl
  rw [Int64.toInt_ofInt, Int.bmod_def, size]
  split <;> omega

theorem toInt_ofInt_below {n : Int} (below : n < -9223372036854775808)
    (near : -27670116110564327424 ≤ n) : (Int64.ofInt n).toInt = n + 18446744073709551616 := by
  have size : (Int64.size : Int) = 18446744073709551616 := rfl
  rw [Int64.toInt_ofInt, Int.bmod_def, size]
  split <;> omega

/-- A value that does not fit comes round to the other side of the bound. -/
theorem within_of_wrapped (counts : l.Counts last step)
    (wraps : ¬ FitsInt64 (l.past first last step)) :
    l.direction.Within last.toInt (l.counterAfter first step (l.total first last step)).toInt := by
  have start := fitsInt64_toInt first
  have stop := fitsInt64_toInt last
  have stride := fitsInt64_toInt step
  have forward := counts.forward
  cases none : l.total first last step with
  | zero =>
    rw [past, none, Direction.valueAfter_zero] at wraps
    exact absurd start wraps
  | succ k =>
    have within := (Direction.within_iff forward k).2 (show k < l.total first last step by omega)
    have ahead : 0 ≤ (k : Int) * step.toInt := by positivity
    have more : ((k + 1 : Nat) : Int) * step.toInt = k * step.toInt + step.toInt := by
      push_cast
      ring
    rw [past, none] at wraps
    rw [counterAfter]
    cases way : l.direction with
    | up =>
      simp only [way, Direction.Within, Direction.valueAfter, more, FitsInt64] at *
      have wrapped := toInt_ofInt_above
        (show 9223372036854775808 ≤ first.toInt + (k * step.toInt + step.toInt) by omega)
        (by omega)
      omega
    | down =>
      simp only [way, Direction.Within, Direction.valueAfter, more, FitsInt64] at *
      have wrapped := toInt_ofInt_below
        (show first.toInt - (k * step.toInt + step.toInt) < -9223372036854775808 by omega)
        (by omega)
      omega

theorem stopsPast_iff (counts : l.Counts last step) :
    Eval.inRange l.direction (Binary64.ofInt last.toInt)
      (Binary64.ofInt (l.counterAfter first step (l.total first last step)).toInt) = false ↔
    l.StopsPast first last step := by
  by_cases fits : FitsInt64 (l.past first last step)
  · rw [counterAfter, ← past, fits.toInt_ofInt, StopsPast, and_iff_right fits]
  · have within := within_of_wrapped counts fits
    have goes := Eval.inRange_of_within (fitsInt64_toInt last) (fitsInt64_toInt _) within
    rw [goes]
    simp [StopsPast, fits]

/-- After all its rounds the loop is over exactly if it stops past its bound. -/
theorem At.over_iff (counts : l.Counts last step)
    (here : l.At first last step (l.total first last step) m) :
    ((∃ v, (outcome (l.onwards (fuel + 1) (l.total first last step) kept).act m).1 = .ok v) ∧
      (l.onwards (fuel + 1) (l.total first last step) kept).seen m = []) ↔
    l.StopsPast first last step := by
  have test := here.test counts
  rw [← stopsPast_iff counts]
  cases inside : Eval.inRange l.direction (Binary64.ofInt last.toInt)
      (Binary64.ofInt (l.counterAfter first step (l.total first last step)).toInt) with
  | true =>
    rw [inside] at test
    refine iff_of_false ?_ (by simp)
    intro ⟨⟨v, ended⟩, silent⟩
    rcases Watched.repeatRounds_goes test with more | ⟨exit, after, failed⟩
    · exact more silent
    · rw [onwards, failed] at ended
      cases ended
  | false =>
    rw [inside] at test
    obtain ⟨silent, ended⟩ := Watched.repeatRounds_over test
    refine iff_of_true ⟨⟨kept, ?_⟩, silent⟩ rfl
    rw [onwards, ended]

/-- From its first value on the loop counts up to its bound, and it is over after that exactly if it
stops past its bound. -/
theorem At.counts_up (counts : l.Counts last step) (here : l.At first last step 0 m) {budget : Nat}
    (enough : l.total first last step < budget)
    (steady : ∀ r ∈ (l.onwards budget 0 kept).seen m,
      r.Steady l.counter (l.total first last step)) :
    (∀ k < l.total first last step, ∃ (r : Round φ) (n : Int64),
      ((l.onwards budget 0 kept).seen m)[k]? = some r ∧
        r.before.get? l.counter = some (.int n) ∧
          n.toInt = l.direction.valueAfter first.toInt step.toInt k) ∧
    ((∃ v, (outcome (l.onwards budget 0 kept).act m).1 = .ok v) ∧
        ((l.onwards budget 0 kept).seen m).length = l.total first last step ↔
      l.StopsPast first last step) := by
  obtain ⟨fuel, whole⟩ : ∃ fuel, budget = fuel + 1 + l.total first last step :=
    ⟨budget - l.total first last step - 1, by omega⟩
  subst whole
  obtain ⟨rounds, m', kept', size, values, goesOn, there⟩ :=
    here.run counts (Nat.zero_add _) steady
  rw [goesOn.seen, goesOn.ends]
  constructor
  · intro k below
    have inside : k < rounds.length := size ▸ below
    have found : rounds[k]? = some rounds[k] := List.getElem?_eq_getElem inside
    refine ⟨rounds[k], l.counterAfter first step k, ?_, ?_, ?_⟩
    · rw [List.getElem?_append_left inside, found]
    · rw [values k _ found, Nat.zero_add]
    · exact (Direction.fits_valueAfter counts.forward below).toInt_ofInt
  · let rest := (l.onwards (fuel + 1) (l.total first last step) kept').seen m'
    have silent : (rounds ++ rest).length = l.total first last step ↔ rest = [] := by
      rw [List.length_append, size, Nat.add_eq_left, List.length_eq_zero_iff]
    rw [silent]
    exact there.over_iff counts

/-- Up to `2 ^ 53` a bound is a double and so are its neighbours, so the loop stops past it. -/
theorem stopsPast_of_small (counts : l.Counts last step) (small : last.toInt.natAbs < 2 ^ 53)
    (fits : FitsInt64 (l.past first last step)) : l.StopsPast first last step := by
  have outside : ¬ l.direction.Within last.toInt (l.past first last step) := by
    rw [past, Direction.within_iff counts.forward]
    exact Nat.lt_irrefl _
  refine ⟨fits, ?_⟩
  have bound := fitsInt64_toInt last
  unfold Direction.Within at outside
  unfold Eval.inRange
  cases way : l.direction <;> rw [way] at outside
  · exact decide_eq_false (Binary64.not_ofInt_le bound fits (Int.not_le.1 outside) (.inl small))
  · exact decide_eq_false (Binary64.not_ofInt_le fits bound (Int.not_le.1 outside) (.inr small))

end CountingLoop

/-! ## Counting loops of a program -/

/-- The counting loop of a node. -/
def CountingLoop.ofNode (host : Host φ) (budget : Nat) (counter : String) (direction : Direction)
    (bound step body : Node) (retain : Bool) : CountingLoop φ where
  counter := counter
  direction := direction
  boundLoc := bound.loc
  bound := bound.eval host budget
  stepLoc := step.loc
  step := step.eval host budget
  body := body.eval host budget
  retain := retain

section

variable {host : Host φ} {budget : Nat} {loc : Location} {counter : Located String}
  {direction : Direction} {start bound step body : Node} {retain : Bool} {first : Int64}
  {m : Machine φ}

/-- The machine on which a counting loop begins to count. -/
def Machine.beforeCounting (m : Machine φ) (counter : String) (first : Int64) : Machine φ :=
  (m.pushScope "for").assign counter (.int first)

/-- The rounds of a counting loop, and whether it comes to its end, are those of its counting. -/
theorem countLoop_onwards (starts : start.Yields host budget (.int first)) :
    let loop := Node.countLoop loc counter start bound direction step body retain
    let counting : CountingLoop φ :=
      .ofNode host budget counter.item direction bound step body retain
    loop.rounds host budget m =
      (counting.onwards budget 0 #[]).seen (m.beforeCounting counter.item first) ∧
    ((∃ v, (outcome (loop.eval host budget) m).1 = .ok v) ↔
      ∃ kept, (outcome (counting.onwards budget 0 #[]).act
        (m.beforeCounting counter.item first)).1 = .ok kept) := by
  intro loop counting
  have begins := starts (m.pushScope "for")
  have assigns : outcome (Eval.assign counter.item (.int first)) (m.pushScope "for") =
      (.ok (), m.beforeCounting counter.item first) := rfl
  let inside : Watched (Round φ) φ Value :=
    Watched.quiet (start.eval host budget) >>= fun v =>
      Watched.quiet (Eval.assign counter.item v) >>= fun _ =>
        counting.onwards budget 0 #[] >>= fun kept => Watched.quiet (Eval.loopValue retain kept)
  have whole : loop.watchRounds host budget = Watched.locate loc (Watched.withScope "for" inside) :=
    rfl
  constructor
  · rw [Node.rounds, whole]
    show inside.seen (m.pushScope "for") = _
    rw [Watched.seen_bind_ok _ begins, Watched.seen_bind_ok _ assigns, Watched.seen_bind_quiet]
    rfl
  · rw [← Node.act_watchRounds, whole, Watched.act_locate, Watched.act_withScope,
      Eval.outcome_locate, Eval.outcome_withScope]
    simp only [inside, Watched.act_bind, Watched.act_quiet, outcome_bind, begins, assigns]
    rcases outcome (counting.onwards budget 0 #[]).act (m.beforeCounting counter.item first) with
      ⟨exit | kept, after⟩
    · simp [Except.mapError]
    · cases retain <;> simp [Except.mapError, Eval.loopValue, Eval.newList]

/-- A counting loop between integers of 64 bits whose body leaves its counter alone makes a round
for each value from the first to the bound, the counter being at these values in turn. It comes to
its end after these rounds exactly if the first value past the bound fits 64 bits and its double is
past that of the bound. For a bound below `2 ^ 53` in magnitude it is enough that the value fits. -/
theorem counting_loops_count {last stride : Int64}
    (starts : start.Yields host budget (.int first)) (bounds : bound.Yields host budget (.int last))
    (steps : step.Yields host budget (.int stride)) (forward : 1 ≤ stride.toInt)
    (allows : m.Allows (direction.count first.toInt last.toInt stride.toInt))
    (steady : ∀ r ∈ (Node.countLoop loc counter start bound direction step body retain).rounds
      host budget m, r.Steady counter.item (direction.count first.toInt last.toInt stride.toInt))
    (enough : direction.count first.toInt last.toInt stride.toInt < budget) :
    let loop := Node.countLoop loc counter start bound direction step body retain
    let count := direction.count first.toInt last.toInt stride.toInt
    let past := direction.valueAfter first.toInt stride.toInt count
    (∀ k < count, ∃ (r : Round φ) (n : Int64), (loop.rounds host budget m)[k]? = some r ∧
      r.before.get? counter.item = some (.int n) ∧
        n.toInt = direction.valueAfter first.toInt stride.toInt k) ∧
    ((∃ v, (outcome (loop.eval host budget) m).1 = .ok v) ∧
        (loop.rounds host budget m).length = count ↔
      FitsInt64 past ∧
        Eval.inRange direction (Binary64.ofInt last.toInt) (Binary64.ofInt past) = false) ∧
    (last.toInt.natAbs < 2 ^ 53 → FitsInt64 past →
      Eval.inRange direction (Binary64.ofInt last.toInt) (Binary64.ofInt past) = false) := by
  intro loop count past
  let counting : CountingLoop φ :=
    .ofNode host budget counter.item direction bound step body retain
  have counts : counting.Counts last stride := ⟨bounds, steps, forward⟩
  let begun := m.beforeCounting counter.item first
  have seen : loop.rounds host budget m = (counting.onwards budget 0 #[]).seen begun :=
    (countLoop_onwards starts).1
  have finished : (∃ v, (outcome (loop.eval host budget) m).1 = .ok v) ↔
      ∃ kept, (outcome (counting.onwards budget 0 #[]).act begun).1 = .ok kept :=
    (countLoop_onwards starts).2
  have here : counting.At first last stride 0 begun := by
    refine ⟨?_, allows.running, allows.limit⟩
    rw [CountingLoop.counterAfter, Direction.valueAfter_zero, Int64.ofInt_toInt]
    exact m.get?_assign_pushed "for" counter.item (.int first)
  have stays : ∀ r ∈ (counting.onwards budget 0 #[]).seen begun, r.Steady counter.item count :=
    seen ▸ steady
  obtain ⟨upTo, stops⟩ := here.counts_up counts enough stays
  rw [finished, seen]
  exact ⟨upTo, stops, fun small fits => (counting.stopsPast_of_small counts small fits).2⟩

end

/-- A counting loop whose body reads the counter. -/
def readingLoop (direction : Direction) (first last step : Int64) : Node :=
  .countLoop default ⟨"i", default⟩ (.constant default (.int first)) (.constant default (.int last))
    direction (.constant default (.int step)) (.name default "i") true

theorem Node.yields_int (host : Host φ) (budget : Nat) (n : Int64) :
    (Node.constant default (.int n)).Yields host budget (.int n) := by
  intro m
  rw [Node.eval]
  rfl

/-- Down from 7 to 2 by twos there are three rounds. -/
theorem counting_loops_count_down :
    let loop := readingLoop .down 7 2 2
    Machine.fresh.Allows 3 ∧ Direction.down.count 7 2 2 = 3 ∧ Direction.down.valueAfter 7 2 3 = 1 ∧
    (∃ v, (outcome (loop.eval Host.echo 4) Machine.fresh).1 = .ok v) ∧
    (loop.rounds Host.echo 4 Machine.fresh).length = 3 := by
  intro loop
  have allows : Machine.fresh.Allows 3 := by
    refine ⟨rfl, ?_⟩
    intro limit limited
    cases limited
  have steady : ∀ r ∈ loop.rounds Host.echo 4 Machine.fresh, r.Steady "i" 3 := by
    intro r member
    obtain ⟨k, found⟩ := List.getElem?_of_mem member
    match k, found with
    | 0, found | 1, found | 2, found =>
      obtain rfl := Option.some.inj found
      refine ⟨⟨_, rfl⟩, rfl, rfl, ?_⟩
      intro limit limited
      cases limited
    | k + 3, found => cases found
  have start := Node.yields_int Host.echo 4 7
  have two := Node.yields_int Host.echo 4 2
  have counted := counting_loops_count start two two (by decide) allows steady (by decide)
  have stops := counted.2.2 (by decide) (by decide)
  obtain ⟨ended, length⟩ := counted.2.1.2 ⟨by decide, stops⟩
  exact ⟨allows, rfl, rfl, ended, length⟩

/-- The loop from `2 ^ 53 + 1` up to `2 ^ 53` makes a round though there is nothing to count,
because both integers are rounded to the same double. The loop up to the largest integer goes on
after it has counted it, because its counter wraps around. -/
theorem counting_loops_overrun :
    let rounding := readingLoop .up 9007199254740993 9007199254740992 1
    let wrapping := readingLoop .up 9223372036854775807 9223372036854775807 1
    Machine.fresh.self.cancelled = false ∧ Machine.fresh.self.config.maxIterations = none ∧
    (∀ m, ∃ v, outcome ((Node.name default "i").eval Host.echo 3) m = (.ok v, m)) ∧
    Direction.up.count 9007199254740993 9007199254740992 1 = 0 ∧
    (rounding.rounds Host.echo 3 Machine.fresh).length = 1 ∧
    Direction.up.count 9223372036854775807 9223372036854775807 1 = 1 ∧
    (wrapping.rounds Host.echo 3 Machine.fresh).length = 3 := by
  refine ⟨rfl, rfl, fun m => ⟨(m.get? "i").getD .null, ?_⟩, rfl, rfl, rfl, rfl⟩
  rw [Node.eval]
  rfl

end Polyglot
