import Polyglot.Proofs.Lexing.Joining
import Polyglot.Proofs.Localisation
import Polyglot.Proofs.Parsing.Following
import Polyglot.Proofs.ScopeStack

/-!
# Scripts one after the other

Two scripts joined by a line end form the program of the first followed by the program of the
second, and running that is like running the first and then the second.
-/

namespace Polyglot

variable {φ : Type}

/-! ## Programs -/

namespace Program

/-- Two scripts joined by a line end form the statements of the first, followed by those of the
second in other places. -/
theorem exists_parse_join {languages : Languages} {first second name name' : String}
    {p q : Program} (accepted : parse languages first name = .ok p)
    (accepted' : parse languages second name' = .ok q)
    (plain : (Reading.ofSource languages first).directive = none)
    (plain' : (Reading.ofSource languages second).directive = none)
    (closes : Reading.ClosesLine languages first) (joinedName : String) :
    ∃ moved, parse languages (Reading.join first second) joinedName =
        .ok ⟨joinedName, Reading.join first second, p.body ++ moved⟩ ∧
      List.Forall₂ (Node.Alike .outside) q.body moved := by
  obtain ⟨tokens, u, read, run⟩ := exists_run_of_parse accepted
  obtain ⟨tokens', u', read', run'⟩ := exists_run_of_parse accepted'
  obtain ⟨plainJoin, lineEnd, rest, readJoin, isEol, same, start, pos⟩ :=
    closes.exists_tokens_join plain plain' read read'
  rw [Reading.dictionary_of_none plain] at run
  rw [Reading.dictionary_of_none plain'] at run'
  have seam : Grammar.Seam { rest := tokens, eof := (Reading.ofSource languages first).eof }
      { rest := lineEnd :: rest
        eof := (Reading.ofSource languages (Reading.join first second)).eof }
      { rest := tokens', eof := (Reading.ofSource languages second).eof } := by
    refine ⟨rfl, rfl, rfl, ?_, isEol, start, pos, same⟩
    intro token member
    exact Reading.kind_ne_eof readJoin member
  obtain ⟨moved, v, runJoin, related⟩ :=
    Grammar.exists_run_program languages.standard seam run run'
  have whole : Tape.append { rest := tokens, eof := (Reading.ofSource languages first).eof }
      { rest := lineEnd :: rest
        eof := (Reading.ofSource languages (Reading.join first second)).eof } =
      { rest := tokens ++ lineEnd :: rest
        eof := (Reading.ofSource languages (Reading.join first second)).eof } := rfl
  rw [whole] at runJoin
  refine ⟨moved, ?_, related⟩
  rw [parse, ofReading_of_tokens readJoin, Reading.dictionary_of_none plainJoin, runJoin]
  rfl

end Program

/-! ## Runs -/

/-- Functions of the host that do not look at the log. -/
def Host.IgnoresLog (host : Host φ) : Prop :=
  ∀ function args m m', m.withoutLog = m'.withoutLog →
    (outcome (host function args) m).1 = (outcome (host function args) m').1 ∧
    (outcome (host function args) m).2.withoutLog = (outcome (host function args) m').2.withoutLog

/-- Evaluation does not look at the log either. -/
theorem Host.IgnoresLog.simulation {host : Host φ} (ignores : host.IgnoresLog) :
    Simulation host fun m m' => m.withoutLog = m'.withoutLog where
  self same := congrArg (fun m => m.self) same
  heap same := congrArg (fun m => m.world.heap) same
  scopes same id name := congrArg (fun m => m.world.scopes.get? id name) same
  setSelf self same := congrArg (fun m : Machine φ => { m with self := self }) same
  setHeap heap same :=
    congrArg (fun m : Machine φ => { m with world := { m.world with heap := heap } }) same
  assign name value same := congrArg (fun m => m.assign name value) same
  pushScope name same := congrArg (fun m => (m.pushScope name).withoutLog) same
  emit _ _ same := same
  call function args _ _ same := ignores function args _ _ same

/-- Every statement of the program ends with a value: it runs to its end, and without a `return`. -/
def Program.RunsThrough (host : Host φ) (budget : Nat) (p : Program) (m : Machine φ) : Prop :=
  ∃ v, (outcome (Node.evalBody host budget .null p.body)
    (m.report (.started p.name p.body.length))).1 = .ok v

section

variable {host : Host φ} {budget : Nat}

/-- After statements that all end with a value comes what follows them. -/
theorem outcome_evalStatements_append {ns : List Node} {last v : Value} {m k : Machine φ}
    (through : outcome (Node.evalBody host budget last ns) m = (.ok v, k)) (ms : List Node) :
    outcome (Program.evalStatements host budget last (ns ++ ms)) m =
      outcome (Program.evalStatements host budget v ms) k := by
  induction ns generalizing last m with
  | nil =>
    cases through
    rfl
  | cons n ns ih =>
    rw [Node.evalBody, outcome_bind] at through
    rw [List.cons_append, outcome_evalStatements_cons]
    rcases result : outcome (n.eval host budget) m with ⟨exit | a, m'⟩
    · rw [result] at through
      cases through
    · rw [result] at through
      exact ih through

/-- The value before the first statement does not matter. -/
theorem outcome_evalStatements_of_ne_nil {ns : List Node} (some : ns ≠ []) (last last' : Value)
    (m : Machine φ) :
    outcome (Program.evalStatements host budget last ns) m =
      outcome (Program.evalStatements host budget last' ns) m := by
  obtain ⟨n, ns, rfl⟩ := List.exists_cons_of_ne_nil some
  rw [outcome_evalStatements_cons, outcome_evalStatements_cons]

/-- Statements that are the same but for locations end alike on machines that are the same but for
the log. -/
theorem evalStatements_erased (ignores : host.IgnoresLog) (budget : Nat) {ns ns' : List Node}
    (body : ns.map Node.erase = ns'.map Node.erase) (last : Value) {m m' : Machine φ}
    (same : m.withoutLog = m'.withoutLog) :
    EndsAlike Stop.SameCause (outcome (Program.evalStatements host budget last ns) m).1
      (outcome (Program.evalStatements host budget last ns') m').1 ∧
    (outcome (Program.evalStatements host budget last ns) m).2.withoutLog =
      (outcome (Program.evalStatements host budget last ns') m').2.withoutLog := by
  have erased : Node.mapLocAll (fun _ => default) ns = Node.mapLocAll (fun _ => default) ns' := by
    rw [Node.mapLocAll_eq_map, Node.mapLocAll_eq_map]
    exact body
  -- Both are compared with the statements in which all locations are forgotten.
  obtain ⟨alike, left⟩ :=
    ignores.simulation.evalStatements (fun _ => default) budget ns last m m' same
  obtain ⟨alike', right⟩ :=
    ignores.simulation.evalStatements (fun _ => default) budget ns' last m' m' rfl
  rw [erased] at alike left
  exact ⟨alike.sameCause alike', left.trans right.symm⟩

/-- A program that runs through leaves what its statements leave, up to the log. -/
theorem Program.RunsThrough.exists_outcome (keeps : host.KeepsScopes) {p : Program}
    {m : Machine φ} (through : p.RunsThrough host budget m) :
    ∃ v k, outcome (Node.evalBody host budget .null p.body)
        (m.report (.started p.name p.body.length)) = (.ok v, k) ∧
      k.self.scopes = m.self.scopes ∧
      (outcome (executeProgram host budget p) m).2.withoutLog = k.withoutLog := by
  obtain ⟨v, value⟩ := through
  rcases ran : outcome (Node.evalBody host budget .null p.body)
    (m.report (.started p.name p.body.length)) with ⟨result, k⟩
  rw [ran] at value
  dsimp only at value
  subst value
  have ended := outcome_evalStatements_append ran []
  rw [List.append_nil] at ended
  have kept := keeps.invariant.evalStatements budget .null p.body
    (m.report (.started p.name p.body.length))
  rw [ended] at kept
  have scopes : k.self.scopes = m.self.scopes := kept
  refine ⟨v, k, rfl, scopes, ?_⟩
  rw [outcome_executeProgram, ended]
  show { k.withoutLog with
    self := { k.self with scopes := k.self.scopes.truncate m.self.scopes.depth } } = k.withoutLog
  rw [← scopes, ScopeStack.truncate_depth]
  rfl

/-- Where a program runs through, running another one after it is like running both as one. -/
theorem executeProgram_append (keeps : host.KeepsScopes) (ignores : host.IgnoresLog)
    {p q joined : Program}
    (body : joined.body.map Node.erase = p.body.map Node.erase ++ q.body.map Node.erase)
    {m : Machine φ} (through : p.RunsThrough host budget m) (some : q.body ≠ []) :
    EndsAlike Stop.SameCause
      (outcome (executeProgram host budget q) (outcome (executeProgram host budget p) m).2).1
      (outcome (executeProgram host budget joined) m).1 ∧
    (outcome (executeProgram host budget q)
        (outcome (executeProgram host budget p) m).2).2.withoutLog =
      (outcome (executeProgram host budget joined) m).2.withoutLog := by
  obtain ⟨v, k, ran, scopes, left⟩ := through.exists_outcome keeps
  have depth := congrArg ScopeStack.depth (scopes_executeProgram keeps budget p m)
  generalize (outcome (executeProgram host budget p) m).2 = between at left depth ⊢
  -- Behind the statements of the first program, the joined one goes on with those of the second.
  have goesOn := (outcome_evalStatements_append ran q.body).trans
    (outcome_evalStatements_of_ne_nil some v .null k)
  have bodies : (p.body ++ q.body).map Node.erase = joined.body.map Node.erase := by
    rw [body, List.map_append]
  have started : (between.report (.started q.name q.body.length)).withoutLog = k.withoutLog := left
  obtain ⟨alike, related⟩ := ignores.simulation.evalStatements id budget q.body .null _ _ started
  rw [Node.mapLocAll_id, ← goesOn] at alike related
  have start : (m.report (.started p.name p.body.length)).withoutLog =
      (m.report (.started joined.name joined.body.length)).withoutLog := rfl
  obtain ⟨alike', related'⟩ := evalStatements_erased ignores budget bodies .null start
  rw [outcome_executeProgram, outcome_executeProgram, depth]
  refine ⟨?_, ?_⟩
  · rw [alike.eq fun _ _ moved => moved.eq]
    exact alike'
  · exact ignores.simulation.truncate m.self.scopes.depth (related.trans related')

end

/-- Two scripts without a directive, of which the first closes its last line, are accepted when
they are joined by a line end, and form the statements of both. Where the first one runs through
and the second one has a statement, running the one and then the other gives the same value, or a
failure of the same kind with the same message, as running the joined script once, and leaves the
same machine but for the log. -/
theorem scripts_compose {languages : Languages} {first second name name' : String} {p q : Program}
    (accepted : Program.parse languages first name = .ok p)
    (accepted' : Program.parse languages second name' = .ok q)
    (plain : (Reading.ofSource languages first).directive = none)
    (plain' : (Reading.ofSource languages second).directive = none)
    (closes : Reading.ClosesLine languages first) (joinedName : String) :
    ∃ joined, Program.parse languages (first ++ "\n" ++ second) joinedName = .ok joined ∧
      joined.body.map Node.erase = p.body.map Node.erase ++ q.body.map Node.erase ∧
      ∀ (host : Host φ) budget m, host.KeepsScopes → host.IgnoresLog →
        p.RunsThrough host budget m → q.body ≠ [] →
        EndsAlike Stop.SameCause
          (outcome (executeProgram host budget q) (outcome (executeProgram host budget p) m).2).1
          (outcome (executeProgram host budget joined) m).1 ∧
        (outcome (executeProgram host budget q)
            (outcome (executeProgram host budget p) m).2).2.withoutLog =
          (outcome (executeProgram host budget joined) m).2.withoutLog := by
  obtain ⟨moved, formed, related⟩ :=
    Program.exists_parse_join accepted accepted' plain plain' closes joinedName
  have erased := (Node.Alike.all related).1
  rw [Node.mapLocAll_eq_map, Node.mapLocAll_eq_map] at erased
  have body : (p.body ++ moved).map Node.erase =
      p.body.map Node.erase ++ q.body.map Node.erase := by
    rw [List.map_append]
    exact congrArg (_ ++ ·) erased.symm
  refine ⟨⟨joinedName, Reading.join first second, p.body ++ moved⟩, formed, body, ?_⟩
  intro host budget m keeps ignores through some
  exact executeProgram_append keeps ignores body through some

/-- A conditional, whose alternative would be looked for past the comment and the line end. -/
def guardedStart : String := "if true { x = 3 } #* and no else *#"

/-- A script that would be the rest of a subtraction on the same line. -/
def negation : String := "-x"

theorem Reading.closesLine_builtin {source : String}
    (readable : (ofSource .builtin (source ++ "\n")).tokens.isOk = true)
    (closed : (builtinTokens (source ++ "\n")).getLast?.map
      (fun token => (token.kind.isEol, token.loc.span.start)) =
        some (true, source.utf8ByteSize)) : ClosesLine .builtin source := by
  have read := tokens_builtin (source ++ "\n") readable
  obtain ⟨last, isLast, seen⟩ := Option.map_eq_some_iff.1 closed
  obtain ⟨isEol, start⟩ := Prod.mk.inj seen
  obtain ⟨tokens, whole⟩ := List.getLast?_eq_some_iff.1 isLast
  rw [whole] at read
  refine ⟨tokens, last, read, ?_, start⟩
  cases kind : last.kind with
  | eol => rfl
  | _ => simp [kind, TokenKind.isEol] at isEol

/-- The conditional runs through, so that it may be run before the negation or together with it. -/
theorem scripts_compose_negation : ∃ p q joined,
    Program.parse .builtin guardedStart = .ok p ∧ Program.parse .builtin negation = .ok q ∧
    (Reading.ofSource .builtin guardedStart).directive = none ∧
    (Reading.ofSource .builtin negation).directive = none ∧
    Reading.ClosesLine .builtin guardedStart ∧
    Program.parse .builtin (guardedStart ++ "\n" ++ negation) = .ok joined ∧
    joined.body.map Node.erase = p.body.map Node.erase ++ q.body.map Node.erase ∧
    Host.echo.KeepsScopes ∧ Host.echo.IgnoresLog ∧ p.RunsThrough Host.echo 1 Machine.fresh ∧
    q.body ≠ [] ∧
    EndsAlike Stop.SameCause
      (outcome (executeProgram Host.echo 1 q)
        (outcome (executeProgram Host.echo 1 p) Machine.fresh).2).1
      (outcome (executeProgram Host.echo 1 joined) Machine.fresh).1 ∧
    (outcome (executeProgram Host.echo 1 q)
        (outcome (executeProgram Host.echo 1 p) Machine.fresh).2).2.withoutLog =
      (outcome (executeProgram Host.echo 1 joined) Machine.fresh).2.withoutLog := by
  have keeps : Host.echo.KeepsScopes := fun _ _ _ => rfl
  have ignores : Host.echo.IgnoresLog := fun _ _ _ _ same => ⟨rfl, same⟩
  have plain : (Reading.ofSource .builtin guardedStart).directive = none := by decide +kernel
  have plain' : (Reading.ofSource .builtin negation).directive = none := by decide +kernel
  have closes : Reading.ClosesLine .builtin guardedStart :=
    Reading.closesLine_builtin (by decide +kernel) (by decide +kernel)
  have through : (match Program.parse .builtin guardedStart with
      | .ok p => (outcome (Node.evalBody Host.echo 1 .null p.body)
        (Machine.fresh.report (.started p.name p.body.length))).1.isOk
      | .error _ => false) = true := by decide +kernel
  have some : (match Program.parse .builtin negation with
      | .ok q => q.body.isEmpty
      | .error _ => true) = false := by decide +kernel
  obtain ⟨p, accepted⟩ : ∃ p, Program.parse .builtin guardedStart = .ok p :=
    exists_of_isOk (by decide +kernel)
  obtain ⟨q, accepted'⟩ : ∃ q, Program.parse .builtin negation = .ok q :=
    exists_of_isOk (by decide +kernel)
  rw [accepted] at through
  rw [accepted'] at some
  have runs : p.RunsThrough Host.echo 1 Machine.fresh := exists_of_isOk through
  have nonempty : q.body ≠ [] := by
    intro none
    simp [none] at some
  obtain ⟨joined, formed, body, sameRun⟩ :=
    scripts_compose accepted accepted' plain plain' closes Program.anonymous
  exact ⟨p, q, joined, accepted, accepted', plain, plain', closes, formed, body, keeps, ignores,
    runs, nonempty, sameRun Host.echo 1 Machine.fresh keeps ignores runs nonempty⟩

end Polyglot
