import Polyglot.Proofs.Eval.Reporting
import Polyglot.Proofs.Eval.Sustained

/-!
# Evaluations inside a run

The nodes that a run evaluates, and on which machines, are seen when the run is watched. A failure
that one of these evaluations ends with is located by then, and no construct around it takes it
back or changes it: the whole run ends with it. And once the interpreter is cancelled, every node is
evaluated on a machine that is.
-/

namespace Polyglot

variable {φ α β δ : Type}

/-- Functions of the host leave a cancelled interpreter cancelled. -/
def Host.KeepsCancelled (host : Host φ) : Prop :=
  ∀ function args m, m.self.cancelled = true →
    (outcome (host function args) m).2.self.cancelled = true

/-! ## Visits -/

/-- An evaluation of a node, as it is seen of a run that began on machine `m`; `fails` says with
which failure the run ends. -/
structure Visit (host : Host φ) (budget : Nat) (known : Node → Prop) (m : Machine φ)
    (fails : RuntimeError → Prop) (n : Node) (k : Machine φ) (r : Except Exit Value) : Prop where
  known : known n
  result : r = (outcome (n.eval host budget) k).1
  cancelled : host.KeepsCancelled → m.self.cancelled = true → k.self.cancelled = true
  carried : ∀ e, r = .error (.stopped (.failed e)) → fails e

namespace Visit

variable {host : Host φ} {budget : Nat} {known : Node → Prop} {m m' : Machine φ}
  {fails fails' : RuntimeError → Prop} {n : Node} {k : Machine φ} {r : Except Exit Value}

/-- A visit in a part of a run is one in the whole run, which the part ends if it fails with a
location. -/
theorem widen (visit : Visit host budget known m fails n k r)
    (flag : host.KeepsCancelled → m'.self.cancelled = true → m.self.cancelled = true)
    (ends : ∀ e loc, e.loc = some loc → fails e → fails' e) :
    Visit host budget known m' fails' n k r := by
  refine ⟨visit.known, visit.result, ?_, ?_⟩
  · intro keeps cancelled
    exact visit.cancelled keeps (flag keeps cancelled)
  · intro e failed
    obtain ⟨loc, located⟩ := Node.exists_loc (visit.result ▸ failed)
    exact ends e loc located (visit.carried e failed)

end Visit

/-- A cancelled interpreter stays cancelled, and what is seen of an action tells the evaluations of
nodes in it. -/
structure Tracks (host : Host φ) (budget : Nat) (known : Node → Prop) (deed? : δ → Option (Deed φ))
    (w : Watched δ φ α) : Prop where
  cancelled : host.KeepsCancelled → ∀ m, m.self.cancelled = true →
    (outcome w.act m).2.self.cancelled = true
  visits : ∀ m, ∀ d ∈ w.seen m, ∀ n k r, deed? d = some (.visit n k r) →
    Visit host budget known m (fun e => (outcome w.act m).1 = .error (.stopped (.failed e))) n k r

namespace Tracks

variable {host : Host φ} {budget : Nat} {known : Node → Prop} {deed? : δ → Option (Deed φ)}

theorem quiet {act : Eval φ α} (kept : ∀ m, (outcome act m).2.self.cancelled = m.self.cancelled) :
    Tracks host budget known deed? (.quiet act) := by
  refine ⟨?_, ?_⟩
  · intro keeps m cancelled
    exact (kept m).trans cancelled
  · intro m d member
    cases member

theorem pure (a : α) :
    Tracks host budget known deed? (Pure.pure a : Watched δ φ α) :=
  quiet fun _ => rfl

theorem bind {w : Watched δ φ α} {next : α → Watched δ φ β}
    (first : Tracks host budget known deed? w)
    (rest : ∀ a, Tracks host budget known deed? (next a)) :
    Tracks host budget known deed? (w >>= next) := by
  refine ⟨?_, ?_⟩
  · intro keeps m cancelled
    have kept := first.cancelled keeps m cancelled
    rw [Watched.act_bind, outcome_bind]
    rcases result : outcome w.act m with ⟨exit | a, m'⟩ <;> rw [result] at kept
    · exact kept
    · exact (rest a).cancelled keeps m' kept
  · intro m d member n k r shown
    have kept (keeps : host.KeepsCancelled) := first.cancelled keeps m
    have visits := first.visits m
    rw [Watched.act_bind, outcome_bind]
    rcases result : outcome w.act m with ⟨exit | a, m'⟩ <;> rw [result] at kept visits
    · rw [Watched.seen_bind_error next result] at member
      refine (visits d member n k r shown).widen (fun _ => id) ?_
      intro e _ _ failed
      cases failed
      rfl
    · rw [Watched.seen_bind_ok next result, List.mem_append] at member
      obtain member | member := member
      · -- The first action has ended with a value, so this visit did not fail.
        refine (visits d member n k r shown).widen (fun _ => id) ?_
        intro e _ _ failed
        cases failed
      · exact ((rest a).visits m' d member n k r shown).widen kept fun _ _ _ => id

theorem withScope {w : Watched δ φ α} (name : String) (inner : Tracks host budget known deed? w) :
    Tracks host budget known deed? (w.withScope name) := by
  refine ⟨?_, ?_⟩
  · intro keeps m cancelled
    rw [Watched.act_withScope, Eval.outcome_withScope]
    exact inner.cancelled keeps (m.pushScope name) cancelled
  · intro m d member n k r shown
    rw [Watched.act_withScope, Eval.outcome_withScope]
    exact (inner.visits (m.pushScope name) d member n k r shown).widen (fun _ => id)
      fun _ _ _ => id

/-! ## Loops -/

theorem inner {w : Watched (Deed φ) φ α} (tracks : Tracks host budget known some w) :
    Tracks host budget known Mark.deed? w.inner := by
  refine ⟨tracks.cancelled, ?_⟩
  intro m d member n k r shown
  obtain ⟨deed, seen, rfl⟩ := List.mem_map.1 member
  exact tracks.visits m deed seen n k r shown

theorem attempt (count : Nat) :
    Tracks host budget known Mark.deed? (Watched.attempt count : Watched (Mark φ) φ Unit) := by
  refine ⟨?_, ?_⟩
  · intro keeps m cancelled
    obtain ⟨-, asked⟩ | ⟨-, _, -, -, asked⟩ | ⟨-, -, asked⟩ := checkpoint_cases count m
    all_goals
      rw [Watched.act_attempt, asked]
      exact cancelled
  · intro m d member n k r shown
    obtain rfl := List.mem_singleton.1 member
    cases shown

theorem pass {body : Watched (Deed φ) φ Value} (tracks : Tracks host budget known some body) :
    Tracks host budget known Mark.deed? body.pass := by
  refine ⟨?_, ?_⟩
  · intro keeps m cancelled
    rw [Watched.act_pass, Eval.outcome_pass]
    exact tracks.cancelled keeps m cancelled
  · intro m d member n k r shown
    rw [Watched.act_pass, Eval.outcome_pass]
    obtain rfl | member := List.mem_cons.1 member
    · cases shown
    · obtain ⟨deed, seen, rfl⟩ := List.mem_map.1 member
      refine (tracks.visits m deed seen n k r shown).widen (fun _ => id) ?_
      intro e _ _ failed
      rw [failed]
      rfl

theorem loop {w : Watched (Mark φ) φ α} (tracks : Tracks host budget known Mark.deed? w) :
    Tracks host budget known some w.loop := by
  refine ⟨tracks.cancelled, ?_⟩
  intro m d member n k r shown
  cases shown
  obtain ⟨mark, seen, shown⟩ := List.mem_filterMap.1 ((List.mem_cons.1 member).resolve_left nofun)
  exact tracks.visits m mark seen n k r shown

theorem repeatWhile {goesOn : Watched (Deed φ) φ Bool} {body : Watched (Deed φ) φ Value}
    {advance : Watched (Deed φ) φ Unit} (test : Tracks host budget known some goesOn)
    (iteration : Tracks host budget known some body) (move : Tracks host budget known some advance)
    (retain : Bool) (fuel : Nat) : ∀ count kept, Tracks host budget known Mark.deed?
      (Watched.repeatWhile goesOn body advance retain fuel count kept) := by
  induction fuel with
  | zero => exact fun _ _ => quiet fun _ => rfl
  | succ fuel ih =>
    intro count kept
    refine test.inner.bind fun goes => ?_
    cases goes with
    | false => exact .pure kept
    | true =>
      refine (attempt count).bind fun _ => iteration.pass.bind fun ended => ?_
      cases ended with
      | leave => exact .pure kept
      | next => exact move.inner.bind fun _ => ih _ _
      | value v => exact move.inner.bind fun _ => ih _ _

theorem forEach {bind : Value → Watched (Deed φ) φ Unit} {body : Watched (Deed φ) φ Value}
    (binding : ∀ item, Tracks host budget known some (bind item))
    (iteration : Tracks host budget known some body) (retain : Bool) (items : List Value) :
    ∀ count kept, Tracks host budget known Mark.deed?
      (Watched.forEach bind body retain items count kept) := by
  induction items with
  | nil => exact fun _ kept => .pure kept
  | cons item items ih =>
    intro count kept
    refine (attempt count).bind fun _ => (binding item).inner.bind fun _ =>
      iteration.pass.bind fun ended => ?_
    cases ended with
    | leave => exact .pure kept
    | next => exact ih _ _
    | value v => exact ih _ _

/-! ## Trees -/

theorem visit {n : Node} {w : Watched (Deed φ) φ Value} (here : known n)
    (same : (w.visit n).act = n.eval host budget) (tracks : Tracks host budget known some w) :
    Tracks host budget known some (w.visit n) := by
  refine ⟨?_, ?_⟩
  · intro keeps m cancelled
    rw [Watched.act_visit, Eval.outcome_locate]
    exact tracks.cancelled keeps m cancelled
  · intro m d member n' k r shown
    cases shown
    obtain this | member := List.mem_cons.1 member
    · cases this
      refine ⟨here, by rw [← same]; rfl, fun _ => id, ?_⟩
      intro e failed
      exact failed
    · refine (tracks.visits m _ member n' k r rfl).widen (fun _ => id) ?_
      intro e loc located failed
      -- A failure that has a location keeps it.
      have same : e.located n.loc = e := by
        obtain ⟨fault, _⟩ := e
        cases located
        rfl
      rw [Watched.act_visit, Eval.outcome_locate, failed]
      exact congrArg (fun e => Except.error (Exit.stopped (Stop.failed e))) same

theorem call (function : φ) (args : List Value) :
    Tracks host budget known some (.call (host function args)) := by
  refine ⟨?_, ?_⟩
  · intro keeps m cancelled
    rw [Watched.act_call, Eval.outcome_ofAction]
    exact keeps function args m cancelled
  · intro m d member n k r shown
    obtain rfl := List.mem_singleton.1 member
    cases shown

/-- The evaluations inside the evaluation of a tree are told by what is seen of it. -/
theorem sustained (host : Host φ) (budget : Nat) (known : Node → Prop) :
    Sustained host budget known (fun {_} w => Tracks host budget known some w) where
  quiet calm := quiet calm.cancelled
  bind := bind
  visit := visit
  withScope name := withScope name
  call := call
  repeatWhile retain _ _ test iteration move :=
    (repeatWhile test iteration move retain budget 0 #[]).loop
  forEach retain items binding iteration := (forEach binding iteration retain items 0 #[]).loop

end Tracks

theorem Node.tracks (host : Host φ) (budget : Nat) (n : Node) :
    Tracks host budget (fun k => k.Within n) some (n.watch host budget) :=
  (Tracks.sustained host budget _).watch n fun _ => id

/-- What is seen of the evaluation of a tree are evaluations of nodes in it. -/
theorem Node.visit_of_seen {host : Host φ} {budget : Nat} {outer n : Node} {m k : Machine φ}
    {r : Except Exit Value} (seen : .visit n k r ∈ (outer.watch host budget).seen m) :
    Visit host budget (fun n => n.Within outer) m
      (fun e => (outcome (outer.eval host budget) m).1 = .error (.stopped (.failed e))) n k r := by
  have visit := (outer.tracks host budget).visits m _ seen n k r rfl
  rwa [Node.act_watch] at visit

/-- The evaluation of a node is seen itself. -/
theorem Node.visit_mem_seen (host : Host φ) (budget : Nat) (n : Node) (m : Machine φ) :
    .visit n m (outcome (n.eval host budget) m).1 ∈ (n.watch host budget).seen m := by
  have shape : ∃ w, n.watch host budget = .visit n w := by
    rw [Node.watch.eq_def]
    exact ⟨_, rfl⟩
  obtain ⟨w, unfolded⟩ := shape
  rw [← Node.act_watch, unfolded]
  exact List.mem_cons_self

/-! ## Programs -/

theorem Program.visit_of_seenStatements {host : Host φ} {budget : Nat} (last : Value)
    {ns : List Node} {m k : Machine φ} {n : Node} {r : Except Exit Value}
    (seen : .visit n k r ∈ Program.seenStatements host budget ns m) :
    Visit host budget (fun n => ∃ statement ∈ ns, n.Within statement) m
      (fun e => (outcome (Program.evalStatements host budget last ns) m).1 = .error (.failed e))
      n k r := by
  induction ns generalizing last m with
  | nil => cases seen
  | cons statement ns ih =>
    have visits := @Node.visit_of_seen φ host budget statement n m k r
    have kept (keeps : host.KeepsCancelled) :=
      (statement.tracks host budget).cancelled keeps m
    rw [Node.act_watch] at kept
    have here : n.Within statement → ∃ s ∈ statement :: ns, n.Within s :=
      fun within => ⟨statement, List.mem_cons_self, within⟩
    rw [Program.seenStatements, List.mem_append] at seen
    rw [outcome_evalStatements_cons]
    rcases result : outcome (statement.eval host budget) m with ⟨exit | v, m'⟩ <;>
      rw [result] at seen kept visits
    · have visit := visits (seen.resolve_right nofun)
      refine ⟨here visit.known, visit.result, visit.cancelled, ?_⟩
      intro e failed
      cases visit.carried e failed
      rfl
    · obtain seen | seen := seen
      · -- The statement has ended with a value, so this visit did not fail.
        have visit := visits seen
        refine ⟨here visit.known, visit.result, visit.cancelled, ?_⟩
        intro e failed
        cases visit.carried e failed
      · have visit := ih v seen
        obtain ⟨s, member, within⟩ := visit.known
        exact ⟨⟨s, List.mem_cons_of_mem _ member, within⟩, visit.result,
          fun keeps cancelled => visit.cancelled keeps (kept keeps cancelled), visit.carried⟩

/-- What is seen of running a program are evaluations of nodes in its statements. -/
theorem Program.visit_of_seen {host : Host φ} {budget : Nat} {p : Program} {m k : Machine φ}
    {n : Node} {r : Except Exit Value} (seen : .visit n k r ∈ p.seen host budget m) :
    Visit host budget (fun n => ∃ statement ∈ p.body, n.Within statement) m
      (fun e => (outcome (executeProgram host budget p) m).1 = .error (.failed e)) n k r := by
  have visit := Program.visit_of_seenStatements .null seen
  rw [outcome_executeProgram]
  exact ⟨visit.known, visit.result, visit.cancelled, visit.carried⟩

end Polyglot
