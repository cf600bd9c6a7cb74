import Polyglot.Proofs.Eval.Simulation
import Polyglot.Proofs.Parsing.Rules

/-!
# Scripts in several languages

A script means the same in every language: if two scripts are cut into tokens of the same kinds,
they form the same program but for locations, and running the one is like running the other. The
spelling of a keyword matters only where it is the key of a property.
-/

namespace Polyglot

variable {φ : Type}

/-! ## Tokens -/

/-- Tokens of the same kinds, in which every keyword right before a colon is spelled alike. -/
structure Translation (tokens tokens' : List Token) : Prop where
  kinds : tokens.map Token.kind = tokens'.map Token.kind
  keys : ∀ i k, tokens[i]?.map Token.kind = some (.keyword k) →
    tokens[i + 1]?.map Token.kind = some (.symbol .colon) →
    tokens[i]?.map Token.text = tokens'[i]?.map Token.text

/-- A name is the text of its token. -/
def Token.Faithful (token : Token) : Prop :=
  ∀ s, token.kind = .name s → token.text = s

theorem Token.faithful_ofLexeme {d : Dictionary} {l : Located Lexeme} {token : Token}
    (read : ofLexeme d l = .ok token) : token.Faithful := by
  intro s isName
  unfold ofLexeme kindOf at read
  rcases l with ⟨⟨kind, text⟩, loc⟩
  cases kind with
  | word =>
    dsimp only at read
    cases found : d.lookup (String.ofList text) with
    | some k =>
      rw [found] at read
      cases read
      cases isName
    | none =>
      rw [found] at read
      cases read
      exact TokenKind.name.inj isName
  | number n =>
    cases n <;> cases read <;> cases isName
  | blank | eol | text | symbol | stray | faulty =>
    cases read <;> cases isName

namespace Reading

theorem items_of_tokens {items : List (Except CompileError Token)} {tokens : List Token}
    (read : (items.mapM fun item => item) = .ok tokens) : items = tokens.map .ok := by
  induction items generalizing tokens with
  | nil =>
    cases read
    rfl
  | cons item items ih =>
    rw [List.mapM_cons] at read
    cases item with
    | error e => cases read
    | ok token =>
      cases rest : (items.mapM fun item => item) with
      | error e =>
        rw [rest] at read
        cases read
      | ok tokens =>
        rw [rest] at read
        cases read
        rw [ih rest, List.map_cons]

/-- Every name that was read is the text of its token. -/
theorem faithful {languages : Languages} {source : String} {tokens : List Token}
    (read : (ofSource languages source).tokens = .ok tokens) :
    ∀ token ∈ tokens, token.Faithful := by
  intro token member
  have items := items_of_tokens read
  have listed : Except.ok token ∈ (ofSource languages source).items := by
    rw [items]
    exact List.mem_map_of_mem member
  obtain ⟨l, -, formed⟩ := List.mem_map.1 listed
  exact Token.faithful_ofLexeme formed

end Reading

/-- Translations differ in nothing that the grammar looks at. -/
theorem Translation.sameTokens {tokens tokens' : List Token} (h : Translation tokens tokens')
    (faithful : ∀ token ∈ tokens, token.Faithful)
    (faithful' : ∀ token ∈ tokens', token.Faithful) : SameTokens tokens tokens' := by
  induction tokens generalizing tokens' with
  | nil =>
    have none : tokens' = [] := by simpa using h.kinds.symm
    rw [none]
    exact .nil
  | cons token tokens ih =>
    cases tokens' with
    | nil => cases h.kinds
    | cons token' tokens' =>
      obtain ⟨kind, kinds⟩ := List.cons.inj h.kinds
      refine .cons kind ?_ ?_ (ih ⟨kinds, fun i => h.keys (i + 1)⟩ ?_ ?_)
      · intro s isName
        rw [faithful token (by simp) s isName, faithful' token' (by simp) s (kind ▸ isName)]
      · intro k isKeyword colon
        rw [Token.ColonFirst, List.head?_eq_getElem?] at colon
        exact Option.some.inj (h.keys 0 k (congrArg some isKeyword) colon)
      · exact fun t member => faithful t (by simp [member])
      · exact fun t member => faithful' t (by simp [member])

/-! ## Runs -/

/-- Failures of the same kind with the same message. -/
structure RuntimeError.SameCause (e e' : RuntimeError) : Prop where
  kind : e.kind = e'.kind
  message : e.message = e'.message

/-- The same reason to stop, wherever a failure arose. -/
def Stop.SameCause : Stop → Stop → Prop
  | .failed e, .failed e' => e.SameCause e'
  | .unfinished, .unfinished => True
  | _, _ => False

/-- Reasons that come from one by moving its failure have the same cause. -/
theorem Stop.Moved.sameCause {f : Location → Location} {stop stop' origin : Stop}
    (moved : stop.Moved f origin) (moved' : stop'.Moved f origin) : stop.SameCause stop' := by
  cases moved with
  | unfinished =>
    cases moved'
    trivial
  | failed moved =>
    cases moved' with
    | failed moved' =>
      have same := moved.fault.trans moved'.fault.symm
      exact ⟨congrArg RuntimeFault.kind same, congrArg RuntimeFault.message same⟩

theorem EndsAlike.sameCause {α : Type} {f : Location → Location} {r r' origin : Except Stop α}
    (alike : EndsAlike (Stop.Moved f) r origin) (alike' : EndsAlike (Stop.Moved f) r' origin) :
    EndsAlike Stop.SameCause r r' := by
  cases alike with
  | value v =>
    cases alike'
    exact .value v
  | exit moved =>
    cases alike' with
    | exit moved' => exact .exit (moved.sameCause moved')

/-- A machine apart from its log. -/
def Machine.withoutLog (m : Machine φ) : Machine φ :=
  { m with world := { m.world with log := {} } }

@[simp] theorem Machine.withoutLog_report (m : Machine φ) (event : Event) :
    (m.report event).withoutLog = m.withoutLog := rfl

/-- Evaluation cannot tell a machine from itself. -/
theorem Simulation.same (host : Host φ) : Simulation host Eq where
  self same := by rw [same]
  heap same := by rw [same]
  scopes same _ _ := by rw [same]
  setSelf _ same := by rw [same]
  setHeap _ same := by rw [same]
  assign _ _ same := by rw [same]
  pushScope _ same := by rw [same]
  emit _ _ same := by rw [same]
  call _ _ _ _ same := by
    rw [same]
    exact ⟨rfl, rfl⟩

/-- Programs that are the same but for locations end alike and leave the same machine but for the
log. -/
theorem executeProgram_erased (host : Host φ) (budget : Nat) (p p' : Program)
    (name : p.name = p'.name)
    (body : Node.mapLocAll (fun _ => default) p.body =
      Node.mapLocAll (fun _ => default) p'.body) (m : Machine φ) :
    EndsAlike Stop.SameCause (outcome (executeProgram host budget p) m).1
      (outcome (executeProgram host budget p') m).1 ∧
    (outcome (executeProgram host budget p) m).2.withoutLog =
      (outcome (executeProgram host budget p') m).2.withoutLog := by
  -- Both are compared with the program in which all locations are forgotten.
  let erased : Program := ⟨p.name, p.source, Node.mapLocAll (fun _ => default) p.body⟩
  obtain ⟨alike, k, _, rfl, left, origin⟩ := (Simulation.same host).executeProgram
    (fun _ => default) budget p erased rfl rfl (Eq.refl m)
  obtain ⟨alike', l, _, rfl, right, origin'⟩ := (Simulation.same host).executeProgram
    (fun _ => default) budget p' erased name.symm body.symm (Eq.refl m)
  have sameEnd := congrArg Machine.withoutLog (origin.symm.trans origin')
  rw [Machine.withoutLog_report, Machine.withoutLog_report] at sameEnd
  refine ⟨alike.sameCause alike', ?_⟩
  rw [left, right, Machine.withoutLog_report, Machine.withoutLog_report, sameEnd]

/-- Scripts whose tokens translate each other are both accepted or both rejected. If they are
accepted, their programs are the same but for locations, and running them on the same machine
gives the same value, or a failure of the same kind with the same message, and leaves the same
machine but for the log. -/
theorem translation_same_meaning {languages languages' : Languages} {s t name : String}
    {tokens tokens' : List Token}
    (read : (Reading.ofSource languages s).tokens = .ok tokens)
    (read' : (Reading.ofSource languages' t).tokens = .ok tokens')
    (translation : Translation tokens tokens') :
    ((∃ p, Program.parse languages s name = .ok p) ↔
      ∃ p', Program.parse languages' t name = .ok p') ∧
    ∀ p p', Program.parse languages s name = .ok p → Program.parse languages' t name = .ok p' →
      p.body.map Node.erase = p'.body.map Node.erase ∧
      ∀ (host : Host φ) budget m,
        EndsAlike Stop.SameCause (outcome (executeProgram host budget p) m).1
          (outcome (executeProgram host budget p') m).1 ∧
        (outcome (executeProgram host budget p) m).2.withoutLog =
          (outcome (executeProgram host budget p') m).2.withoutLog := by
  have alike := translation.sameTokens (Reading.faithful read) (Reading.faithful read')
  unfold Program.parse
  obtain ⟨e, e', rejected, rejected'⟩ | ⟨body, body', formed, formed', same⟩ :=
    Program.ofReading_alike read read' alike rfl rfl name s name t
  · rw [rejected, rejected']
    refine ⟨⟨fun ⟨_, accepted⟩ => ?_, fun ⟨_, accepted⟩ => ?_⟩, fun _ _ accepted => ?_⟩ <;>
      cases accepted
  · rw [formed, formed']
    refine ⟨⟨fun _ => ⟨_, rfl⟩, fun _ => ⟨_, rfl⟩⟩, fun p p' isP isP' => ?_⟩
    cases isP
    cases isP'
    have erased := (Node.Alike.all same).1
    refine ⟨?_, fun host budget m =>
      executeProgram_erased host budget ⟨name, s, body⟩ ⟨name, t, body'⟩ rfl erased m⟩
    rwa [Node.mapLocAll_eq_map, Node.mapLocAll_eq_map] at erased

/-- A counting loop in English. -/
def englishLoop : String := "for i = 1 till 2 with 1 { i }"

/-- The same loop in French. -/
def frenchLoop : String := "<fr> pour i = 1 jusqua 2 avec 1 { i }"

/-- The tokens of a script under the built-in languages, if all can be read. -/
def builtinTokens (source : String) : List Token :=
  (Reading.ofSource .builtin source).tokens.toOption.getD []

theorem tokens_builtin (source : String)
    (read : (Reading.ofSource .builtin source).tokens.isOk = true) :
    (Reading.ofSource .builtin source).tokens = .ok (builtinTokens source) := by
  obtain ⟨tokens, same⟩ := exists_of_isOk read
  rw [builtinTokens, same]
  rfl

/-- The French loop is read as a translation of the English one, which is accepted, and runs like
it. -/
theorem translation_same_meaning_loop :
    (Reading.ofSource .builtin englishLoop).tokens = .ok (builtinTokens englishLoop) ∧
    (Reading.ofSource .builtin frenchLoop).tokens = .ok (builtinTokens frenchLoop) ∧
    Translation (builtinTokens englishLoop) (builtinTokens frenchLoop) ∧
    ∃ p p', Program.parse .builtin englishLoop = .ok p ∧
      Program.parse .builtin frenchLoop = .ok p' ∧
      p.body.map Node.erase = p'.body.map Node.erase ∧
      ∀ m, EndsAlike Stop.SameCause (outcome (executeProgram Host.echo 3 p) m).1
        (outcome (executeProgram Host.echo 3 p') m).1 := by
  have english := tokens_builtin englishLoop (by decide +kernel)
  have french := tokens_builtin frenchLoop (by decide +kernel)
  have kinds : (builtinTokens englishLoop).map Token.kind =
      [.keyword .forKw, .name "i", .symbol .assign, .int 1, .keyword .tillKw, .int 2,
        .keyword .withKw, .int 1, .symbol .lbrace, .name "i", .symbol .rbrace] := by rfl
  have kinds' : (builtinTokens frenchLoop).map Token.kind =
      [.keyword .forKw, .name "i", .symbol .assign, .int 1, .keyword .tillKw, .int 2,
        .keyword .withKw, .int 1, .symbol .lbrace, .name "i", .symbol .rbrace] := by rfl
  have translation : Translation (builtinTokens englishLoop) (builtinTokens frenchLoop) := by
    refine ⟨kinds.trans kinds'.symm, fun i _ _ colon => ?_⟩
    rw [← List.getElem?_map, kinds] at colon
    exact absurd (List.mem_of_getElem? colon) (by simp)
  obtain ⟨both, same⟩ := translation_same_meaning english french translation
  obtain ⟨p, accepted⟩ : ∃ p, Program.parse .builtin englishLoop = .ok p :=
    exists_of_isOk (by decide +kernel)
  obtain ⟨p', accepted'⟩ := both.1 ⟨p, accepted⟩
  obtain ⟨erased, runs⟩ := same p p' accepted accepted'
  exact ⟨english, french, translation, p, p', accepted, accepted', erased,
    fun m => (runs Host.echo 3 m).1⟩

end Polyglot
