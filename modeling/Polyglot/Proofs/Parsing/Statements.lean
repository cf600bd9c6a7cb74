import Polyglot.Proofs.Parsing.Expressions

/-!
# Reading written statements

The rules of the grammar for conditionals, loops, blocks and statements read what is written for a
tree, over a grammar that already reads its parts. Of a statement the end of its line may be left,
which the next statement skips.
-/

namespace Polyglot

open Parsing

namespace Grammar

variable {g : Grammar} {c : Context} {n : Node} {kinds rest : List TokenKind} {Q : Node → Prop}

/-! ## Conditionals and loops -/

/-- The written tree is read as a branch. -/
def ReadsBranch (g : Grammar) (c : Context) (n : Node) : Prop :=
  ∀ rest, Stops rest → Reads (g.branch c) (n.asBranch n.written ++ rest) rest n.Same

theorem readsBranch_of_between (between : g.ReadsBetween c n) (bare : n.isBlock = false) :
    g.ReadsBranch c n := by
  intro rest stops
  unfold Node.asBranch
  rw [bare]
  exact (reads_skipEols_eol rfl).bind fun _ _ =>
    (reads_at _).bind fun _ same => same ▸ between rest stops

theorem reads_condition (bare : g.ReadsBare c n) (rest : List TokenKind) :
    Reads (g.condition c) (between n.written ++ rest) rest n.Same :=
  (reads_at _).bind fun _ same => same ▸ reads_parenthesized bare rest

theorem reads_conditional {test yes : Node} (l : Location) (testBare : g.ReadsBare c test)
    (yesBranch : g.ReadsBranch c yes) (closed : Closed rest) :
    Reads (g.conditional c) ((Node.conditional l test yes none).written ++ rest) rest
      (Node.conditional l test yes none).Same := by
  have kinds : (Node.conditional l test yes none).written ++ rest =
      .keyword .ifKw :: (between test.written ++ (yes.asBranch yes.written ++ rest)) := by
    simp [Node.written]
  rw [kinds]
  refine reads_mark.bind fun start _ => (reads_takeKeyword _ _).bind fun _ _ =>
    (reads_condition testBare _).bind fun _ sameTest => (yesBranch rest closed.stops).bind
      fun _ sameYes => reads_get.bind fun t shows => ?_
  rw [shows.pastEols, closed.noElse]
  refine (Reads.pure (Q := fun no => no = none) rfl).bind ?_
  rintro _ rfl
  refine (reads_since start).bind fun _ _ => .pure ?_
  exact congrArg₂ (fun a b => Node.conditional default a b none) sameTest sameYes

theorem reads_conditionalElse {test yes no : Node} (l : Location) (testBare : g.ReadsBare c test)
    (yesBranch : g.ReadsBranch c yes) (noBranch : g.ReadsBranch c no) (stops : Stops rest) :
    Reads (g.conditional c) ((Node.conditional l test yes (some no)).written ++ rest) rest
      (Node.conditional l test yes (some no)).Same := by
  have kinds : (Node.conditional l test yes (some no)).written ++ rest =
      .keyword .ifKw :: (between test.written ++ (yes.asBranch yes.written ++
        .eol :: .keyword .elseKw :: (no.asBranch no.written ++ rest))) := by
    simp [Node.written]
  rw [kinds]
  refine reads_mark.bind fun start _ => (reads_takeKeyword _ _).bind fun _ _ =>
    (reads_condition testBare _).bind fun test' sameTest => (yesBranch (.eol :: _) rfl).bind
      fun yes' sameYes => reads_get.bind fun t shows => ?_
  rw [shows.pastEols]
  refine (reads_skipEols_eol rfl).bind fun _ _ => reads_advance.bind fun _ _ =>
    ((noBranch rest stops).map (R := fun found => ∃ m, found = some m ∧ no.Same m)
      fun m same => ⟨m, rfl, same⟩).bind ?_
  rintro _ ⟨no', rfl, sameNo⟩
  have same : Node.conditional default test'.erase yes'.erase (some no'.erase) =
      Node.conditional default test.erase yes.erase (some no.erase) := by
    rw [sameTest, sameYes, sameNo]
  exact (reads_since start).bind fun _ _ => .pure same

theorem reads_whileLoop {test body : Node} (l : Location) (testBare : g.ReadsBare c test)
    (inner : g.ReadsBranch { c with inLoop := true } body) (retain : Bool) (stops : Stops rest) :
    Reads (g.whileLoop c retain) ((Node.whileLoop l test body retain).written ++ rest) rest
      (Node.whileLoop l test body retain).Same := by
  have kinds : (Node.whileLoop l test body retain).written ++ rest =
      .keyword .whileKw :: (between test.written ++ (body.asBranch body.written ++ rest)) := by
    simp [Node.written]
  rw [kinds]
  refine reads_mark.bind fun start _ => (reads_takeKeyword _ _).bind fun _ _ =>
    (reads_condition testBare _).bind fun _ sameTest => (inner rest stops).bind
      fun _ sameBody => (reads_since start).bind fun _ _ => .pure ?_
  exact congrArg₂ (fun a b => Node.whileLoop default a b retain) sameTest sameBody

theorem reads_eachLoop {items body : Node} {target target' : LoopTarget} (l : Location)
    (sameTarget : target'.mapLoc (fun _ => default) = target.mapLoc fun _ => default)
    (collection : g.ReadsBetween c items) (inner : g.ReadsBranch { c with inLoop := true } body)
    (start : Cursor) (stops : Stops rest) :
    Reads (g.eachLoop c start target')
      (.keyword .inKw :: (between items.written ++ (body.asBranch body.written ++ rest))) rest
      (Node.eachLoop l target items body true).Same := by
  refine (reads_takeKeyword _ _).bind fun _ _ => (collection (.eol :: _) rfl).bind
    fun items' sameItems => (inner rest stops).bind fun body' sameBody =>
      (reads_since start).bind fun _ _ => .pure ?_
  have same : Node.eachLoop default (target'.mapLoc fun _ => default) items'.erase body'.erase true =
      Node.eachLoop default (target.mapLoc fun _ => default) items.erase body.erase true := by
    rw [sameTarget, sameItems, sameBody]
  exact same

theorem reads_direction (direction : Direction) :
    Reads Grammar.direction (.keyword direction.keyword :: rest) rest (· = direction) := by
  refine (reads_atKeyword _).bind fun _ up => ?_
  cases direction with
  | up => exact up ▸ reads_advance.bind fun _ _ => .pure rfl
  | down =>
    exact up ▸ (reads_atKeyword _).bind fun _ down => down ▸ reads_advance.bind fun _ _ => .pure rfl

theorem reads_countLoop {first first' bound step body : Node} (l : Location)
    {counter counter' : Located String} (sameCounter : counter'.item = counter.item)
    (sameFirst : first.Same first') (boundBetween : g.ReadsBetween c bound)
    (stepBetween : g.ReadsBetween c step) (inner : g.ReadsBranch { c with inLoop := true } body)
    (way : Direction) (retain : Bool) (start : Cursor) (stops : Stops rest) :
    Reads (g.countLoop c start counter' first' retain)
      (.keyword .tillKw :: (between bound.written ++ .keyword way.keyword ::
        .keyword .withKw :: (between step.written ++ (body.asBranch body.written ++ rest)))) rest
      (Node.countLoop l counter first bound way step body retain).Same := by
  have readStep : Reads (g.step c)
      (.keyword .withKw :: (between step.written ++ (body.asBranch body.written ++ rest)))
      (body.asBranch body.written ++ rest) step.Same :=
    (reads_atKeyword _).bind fun _ found => found ▸ reads_advance.bind fun _ _ =>
      stepBetween (.eol :: _) rfl
  refine (reads_takeKeyword _ _).bind fun _ _ => (boundBetween (.keyword _ :: _) rfl).bind
    fun bound' sameBound => (reads_direction way).bind fun way' sameWay => ?_
  refine readStep.bind fun step' sameStep => (inner rest stops).bind fun body' sameBody =>
    (reads_since start).bind fun _ _ => .pure ?_
  have same : Node.countLoop default ⟨counter'.item, default⟩ first'.erase bound'.erase way'
        step'.erase body'.erase retain =
      Node.countLoop default ⟨counter.item, default⟩ first.erase bound.erase way
        step.erase body.erase retain := by
    rw [sameCounter, sameFirst, sameBound, sameWay, sameStep, sameBody]
  exact same

/-- A counting loop, with its header. -/
theorem reads_forLoop {first bound step body : Node} (l : Location) (counter : Located String)
    (header : ∀ rest, Stops rest → Reads (g.expression c)
      (.name counter.item :: .symbol .assign :: (between first.written ++ rest)) rest
      fun m => ∃ l' k value, m = .assign l' (.name k counter.item) value ∧ first.Same value)
    (boundBetween : g.ReadsBetween c bound) (stepBetween : g.ReadsBetween c step)
    (inner : g.ReadsBranch { c with inLoop := true } body) (way : Direction) (retain : Bool)
    (stops : Stops rest) :
    Reads (g.forLoop c retain)
      ((Node.countLoop l counter first bound way step body retain).written ++ rest) rest
      (Node.countLoop l counter first bound way step body retain).Same := by
  have kinds : (Node.countLoop l counter first bound way step body retain).written ++ rest =
      .keyword .forKw :: .name counter.item :: .symbol .assign :: (between first.written ++
        .keyword .tillKw :: (between bound.written ++ .keyword way.keyword :: .keyword .withKw ::
          (between step.written ++ (body.asBranch body.written ++ rest)))) := by
    simp [Node.written]
  rw [kinds]
  refine reads_mark.bind fun start _ => (reads_takeKeyword _ _).bind fun _ _ =>
    (reads_at _).bind fun _ opens => opens ▸ (header (.keyword _ :: _) rfl).bind ?_
  rintro _ ⟨l', k, value, rfl, sameFirst⟩
  exact reads_countLoop l rfl sameFirst boundBetween stepBetween inner way retain start stops

theorem reads_forEach {items body : Node} (l : Location) (target : LoopTarget)
    (header : ∀ name rest, Stops rest → Reads (g.expression c) (.name name :: rest) rest
      fun m => ∃ k, m = .name k name)
    (collection : g.ReadsBetween c items) (inner : g.ReadsBranch { c with inLoop := true } body)
    (retain : Bool) (stops : Stops rest) :
    Reads (g.forLoop c retain) ((Node.eachLoop l target items body true).written ++ rest) rest
      (Node.eachLoop l target items body true).Same := by
  have kinds : (Node.eachLoop l target items body true).written ++ rest =
      .keyword .forKw :: (target.written ++ .keyword .inKw :: (between items.written ++
        (body.asBranch body.written ++ rest))) := by
    simp [Node.written]
  rw [kinds]
  refine reads_mark.bind fun start _ => (reads_takeKeyword _ _).bind fun _ _ =>
    (reads_at _).bind fun _ opens => ?_
  cases target with
  | single name =>
    refine opens ▸ (header name.item (.keyword _ :: _) rfl).bind ?_
    rintro _ ⟨k, rfl⟩
    exact (reads_atKeyword _).bind fun _ found =>
      found ▸ reads_eachLoop l rfl collection inner start stops
  | pair one two =>
    refine opens ▸ reads_advance.bind fun _ _ => (reads_takeName one.item).bind
      fun one' sameOne => (reads_take _).bind fun _ _ => (reads_takeName two.item).bind
        fun two' sameTwo => (reads_take _).bind fun _ _ =>
          reads_eachLoop l ?_ collection inner start stops
    simp [LoopTarget.mapLoc, Located.mapLoc, sameOne, sameTwo]

/-! ## Lines -/

/-- The tokens begin with a line, close a block or end the script. -/
def FreshLine (rest : List TokenKind) : Prop :=
  rest = [] ∨ ∃ kind more, rest = kind :: more ∧
    (Node.startsLine kind = true ∨ kind = .symbol .rbrace)

/-- The written tree is read as a statement, of which the end of its line may be left. -/
def ReadsLine (statement : Parsing Node) (n : Node) : Prop :=
  ∀ rest, FreshLine rest → ∃ left, (left = [] ∨ left = [.eol]) ∧
    Reads statement (n.written ++ .eol :: rest) (left ++ rest) n.Same

theorem FreshLine.closed (fresh : FreshLine rest) : Closed (.eol :: rest) := by
  refine ⟨rfl, ?_⟩
  rw [List.dropWhile_cons_of_pos rfl]
  obtain rfl | ⟨kind, more, rfl, first⟩ := fresh
  · rfl
  · cases kind with
    | keyword k =>
      rcases first with starts | never
      · have apart : k ≠ .elseKw := by
          rintro rfl
          cases starts
        rw [List.dropWhile_cons_of_neg Bool.false_ne_true]
        exact beq_false_of_ne apart
      · cases never
    | symbol => rfl
    | _ => rcases first with never | never <;> cases never

/-- Separators before a line are skipped, and nothing of the line. -/
theorem reads_freshLine {left : List TokenKind} (few : left = [] ∨ left = [.eol])
    (fresh : FreshLine rest) : Reads skipSeparators (left ++ rest) rest fun _ => True := by
  have skipped : (left ++ rest).dropWhile
      (fun kind => kind.isEol || kind.isSymbol .semi) = rest := by
    have stays : rest.dropWhile (fun kind => kind.isEol || kind.isSymbol .semi) = rest := by
      obtain rfl | ⟨kind, more, rfl, first⟩ := fresh
      · rfl
      · refine List.dropWhile_cons_of_neg ?_
        rcases first with starts | rfl
        · cases kind with
          | symbol s =>
            rcases (by simpa [Node.startsLine] using starts : s = .lbrace ∨ s = .lparen)
              with rfl | rfl <;> decide
          | keyword => exact Bool.false_ne_true
          | _ => cases starts
        · decide
    rcases few with rfl | rfl
    · exact stays
    · rw [List.singleton_append, List.dropWhile_cons_of_pos rfl, stays]
  have reads : Reads skipSeparators (left ++ rest) _ _ := reads_skipSeparators
  rwa [skipped] at reads

theorem freshLine_writtenLines {inLoop : Bool} {ns : List Node}
    (formed : ∀ n ∈ ns, n.WellFormed .statement inLoop) (fresh : FreshLine rest) :
    FreshLine (Node.writtenLines ns ++ rest) := by
  cases ns with
  | nil => exact fresh
  | cons n ns =>
    obtain ⟨kind, kinds, written, starts⟩ := (formed n (by simp)).exists_first
    refine .inr ⟨kind, kinds ++ .eol :: (Node.writtenLines ns ++ rest), ?_, .inl starts⟩
    simp [Node.writtenLines, written]

/-- The first token of a line neither closes a block nor ends the script. -/
theorem startsLine_ne {kind : TokenKind} (starts : Node.startsLine kind = true) :
    kind ≠ .symbol .rbrace ∧ kind ≠ .eof := by
  constructor <;>
  · rintro rfl
    cases starts

/-- Separators before a line are skipped, and the token that is then looked at begins a line. -/
theorem reads_lineAhead {α : Type} {Q : α → Prop} {inLoop : Bool} {left tail out : List TokenKind}
    (few : left = [] ∨ left = [.eol]) (formed : n.WellFormed .statement inLoop)
    {next : Token → Parsing α}
    (reads : ∀ token : Token, token.kind ≠ .symbol .rbrace → token.kind ≠ .eof →
      Reads (next token) (n.written ++ tail) out Q) :
    Reads (do skipSeparators; next (← current)) (left ++ (n.written ++ tail)) out Q := by
  obtain ⟨first, kinds, written, starts⟩ := formed.exists_first
  have fresh : FreshLine (n.written ++ tail) := by
    rw [written]
    exact .inr ⟨first, kinds ++ tail, rfl, .inl starts⟩
  refine (reads_freshLine few fresh).bind fun _ _ => reads_current.bind fun token kind => ?_
  rw [written, List.cons_append, List.headD_cons] at kind
  obtain ⟨within, ahead⟩ := startsLine_ne starts
  exact reads token (kind ▸ within) (kind ▸ ahead)

/-- Lines up to the end of a block. -/
theorem reads_statementsUpTo {inLoop : Bool} {statement : Parsing Node} {ns : List Node}
    (formed : ∀ n ∈ ns, n.WellFormed .statement inLoop)
    (inner : ∀ n ∈ ns, ReadsLine statement n) (rest : List TokenKind) {k : Nat}
    (enough : ns.length < k) {left : List TokenKind} (few : left = [] ∨ left = [.eol]) :
    Reads (statementsUpTo statement k)
      (left ++ (Node.writtenLines ns ++ .symbol .rbrace :: rest)) rest
      (List.Forall₂ Node.Same ns) := by
  have closing : FreshLine (.symbol .rbrace :: rest) := .inr ⟨_, rest, rfl, .inr rfl⟩
  induction ns generalizing k left with
  | nil =>
    obtain ⟨k, rfl⟩ : ∃ j, k = j + 1 := ⟨k - 1, by omega⟩
    refine (reads_freshLine few closing).bind fun _ _ => reads_current.bind fun token kind => ?_
    rw [kind]
    exact reads_advance.bind fun _ _ => .pure .nil
  | cons n ns ih =>
    obtain ⟨k, rfl⟩ : ∃ j, k = j + 1 := ⟨k - 1, by omega⟩
    have others : ∀ m ∈ ns, m.WellFormed .statement inLoop :=
      fun m member => formed m (by simp [member])
    obtain ⟨leftover, fewer, line⟩ := inner n (by simp) _ (freshLine_writtenLines others closing)
    have tail := ih others (fun m member => inner m (by simp [member])) (by simpa using enough)
      fewer
    rw [Node.writtenLines, List.append_assoc, List.cons_append]
    refine reads_lineAhead few (formed n (by simp)) fun token within ahead => ?_
    split
    · exact absurd ‹_› within
    · exact absurd ‹_› ahead
    · exact line.bind fun _ same => tail.bind fun _ all => .pure (.cons same all)

/-- Lines up to the end of the script. -/
theorem reads_programUpTo {inLoop : Bool} {statement : Parsing Node} {ns : List Node}
    (formed : ∀ n ∈ ns, n.WellFormed .statement inLoop)
    (inner : ∀ n ∈ ns, ReadsLine statement n) {k : Nat} (enough : ns.length < k)
    {left : List TokenKind} (few : left = [] ∨ left = [.eol]) :
    Reads (programUpTo statement k) (left ++ Node.writtenLines ns) []
      (List.Forall₂ Node.Same ns) := by
  have ending : FreshLine [] := .inl rfl
  induction ns generalizing k left with
  | nil =>
    obtain ⟨k, rfl⟩ : ∃ j, k = j + 1 := ⟨k - 1, by omega⟩
    refine (reads_freshLine few ending).bind fun _ _ => reads_current.bind fun token kind => ?_
    rw [kind]
    exact .pure .nil
  | cons n ns ih =>
    obtain ⟨k, rfl⟩ : ∃ j, k = j + 1 := ⟨k - 1, by omega⟩
    have others : ∀ m ∈ ns, m.WellFormed .statement inLoop :=
      fun m member => formed m (by simp [member])
    have fresh := freshLine_writtenLines others ending
    rw [List.append_nil] at fresh
    obtain ⟨leftover, fewer, line⟩ := inner n (by simp) _ fresh
    have tail := ih others (fun m member => inner m (by simp [member])) (by simpa using enough)
      fewer
    rw [Node.writtenLines]
    refine reads_lineAhead few (formed n (by simp)) fun token _ ahead => ?_
    split
    · exact absurd ‹_› ahead
    · exact line.bind fun _ same => tail.bind fun _ all => .pure (.cons same all)

theorem length_writtenLines (ns : List Node) : ns.length ≤ (Node.writtenLines ns).length := by
  induction ns with
  | nil => exact Nat.le_refl 0
  | cons n ns ih =>
    simp only [Node.writtenLines, List.length_cons, List.length_append]
    omega

theorem reads_block {ns : List Node} (l : Location)
    (formed : ∀ n ∈ ns, n.WellFormed .statement c.inLoop)
    (inner : ∀ n ∈ ns, ReadsLine (g.statement { c with inBlock := true }) n)
    (rest : List TokenKind) :
    Reads (g.block c) ((Node.block l ns).written ++ rest) rest (Node.block l ns).Same := by
  have kinds : (Node.block l ns).written ++ rest =
      .symbol .lbrace :: (Node.writtenLines ns ++ .symbol .rbrace :: rest) := by
    simp [Node.written]
  rw [kinds]
  refine reads_mark.bind fun start _ => (reads_take _).bind fun _ _ => reads_remaining.bind ?_
  rintro _ rfl
  have enough : ns.length < (Node.writtenLines ns ++ .symbol .rbrace :: rest).length + 1 := by
    have := length_writtenLines ns
    rw [List.length_append]
    omega
  exact (reads_statementsUpTo formed inner rest enough (.inl rfl)).bind fun _ same =>
    (reads_since start).bind fun _ _ => .pure (congrArg (Node.block default) (Node.Same.all same))

theorem readsBranch_of_block {ns : List Node} (l : Location)
    (block : ∀ rest, Reads (g.block c) ((Node.block l ns).written ++ rest) rest
      (Node.block l ns).Same) : g.ReadsBranch c (.block l ns) := by
  intro rest stops
  have kinds : (Node.block l ns).asBranch (Node.block l ns).written ++ rest =
      .eol :: .symbol .lbrace :: (Node.writtenLines ns ++ .symbol .rbrace :: rest) := by
    simp [Node.asBranch, Node.isBlock, Node.written]
  have readBlock := block rest
  have kinds' : (Node.block l ns).written ++ rest =
      .symbol .lbrace :: (Node.writtenLines ns ++ .symbol .rbrace :: rest) := by
    simp [Node.written]
  rw [kinds'] at readBlock
  rw [kinds]
  exact (reads_skipEols_eol rfl).bind fun _ _ => (reads_at _).bind fun _ opens =>
    opens ▸ readBlock

/-! ## Statements -/

/-- The construct that a token begins where a statement is expected, expressions apart. -/
def construct? (g : Grammar) (c : Context) : TokenKind → Option (Parsing Node)
  | .symbol .lbrace => some (g.block c)
  | .keyword .ifKw => some (g.conditional c)
  | .keyword .whileKw => some (g.whileLoop c false)
  | .keyword .forKw => some (g.forLoop c false)
  | _ => none

/-- Such a construct is a statement by itself and leaves the end of its line. -/
theorem readsLine_of_construct {p : Parsing Node} {first : TokenKind} {kinds : List TokenKind}
    (written : n.written = first :: kinds) (begins : construct? g c first = some p)
    (construct : ∀ rest, Closed rest → Reads p (n.written ++ rest) rest n.Same) :
    ReadsLine (g.instruction c) n := by
  intro rest fresh
  refine ⟨[.eol], .inr rfl, ?_⟩
  have reads := construct (.eol :: rest) fresh.closed
  rw [written, List.cons_append] at reads ⊢
  unfold construct? at begins
  split at begins
  case h_5 => cases begins
  all_goals
    cases begins
    refine reads_current.bind fun token kind => ?_
    rw [kind]
    exact reads

theorem readsLine_statement (l : Location) (inner : g.ReadsBetween c n) :
    ReadsLine (g.instruction c) (.statement l n) := by
  intro rest fresh
  refine ⟨[], .inl rfl, reads_current.bind fun token kind => ?_⟩
  have expression := inner (.eol :: rest) rfl
  rw [kind]
  exact reads_mark.bind fun start _ => expression.bind fun _ same =>
    (reads_since start).bind fun _ _ => (Reads.bind (Q := fun _ => True)
      (reads_current.bind fun token kind => kind ▸ reads_advance) fun _ _ =>
        .pure (congrArg (Node.statement default) same))

end Grammar

end Polyglot
