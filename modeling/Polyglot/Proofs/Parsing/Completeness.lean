import Polyglot.Proofs.Parsing.Statements

/-!
# Written trees are read back

Every well-formed tree is read back from what is written for it, by the rules unrolled as often as
it has tokens. So every well-formed body is that of some script.
-/

namespace Polyglot

open Parsing

namespace Grammar

variable {c : Context} {n : Node}

/-- The tree is read back where it stands. -/
def ReadBack (k : Nat) (c : Context) (n : Node) : Role → Prop
  | .expression => (upTo k).ReadsBare c n
  | .branch => (upTo k).ReadsBranch c n
  | .statement => ReadsLine ((upTo k).statement c) n

theorem readsBetween_of_room {k : Nat}
    (bare : ∀ k, n.written.length + 1 < k → ReadBack k c n .expression)
    (room : n.written.length + 2 < k) : (upTo k).ReadsBetween c n := by
  obtain ⟨j, rfl⟩ : ∃ j, k = j + 1 := ⟨k - 1, by omega⟩
  exact readsBetween_upTo (bare j (by omega))

/-- An expression is read back as an expression and as a branch. -/
theorem readBack_of_bare {k : Nat} {role : Role} (noBlock : n.isBlock = false)
    (place : role ≠ .statement) (room : n.written.length + 1 < k)
    (bare : ∀ j, n.written.length ≤ j → (upTo (j + 1)).ReadsBare c n) : ReadBack k c n role := by
  cases role with
  | expression =>
    obtain ⟨j, rfl⟩ : ∃ j, k = j + 1 := ⟨k - 1, by omega⟩
    exact bare j (by omega)
  | branch =>
    obtain ⟨j, rfl⟩ : ∃ j, k = j + 2 := ⟨k - 2, by omega⟩
    exact readsBranch_of_between (readsBetween_upTo (bare j (by omega))) noBlock
  | statement => exact absurd rfl place

/-- A construct that begins with a keyword is read back everywhere. -/
theorem readBack_of_construct {k : Nat} {role : Role} {word : Keyword} {kinds : List TokenKind}
    (noBlock : n.isBlock = false) (written : n.written = .keyword word :: kinds)
    (p : Grammar → Bool → Parsing Node)
    (operand : ∀ g : Grammar, ∀ token, g.keywordOperand c token word = p g true)
    (begins : ∀ g : Grammar, construct? g c (.keyword word) = some (p g false))
    (room : n.written.length + 1 < k)
    (construct : ∀ j, n.written.length ≤ j → ∀ rest, Closed rest →
      Reads (p (upTo j) (decide (role ≠ .statement))) (n.written ++ rest) rest n.Same) :
    ReadBack k c n role := by
  by_cases place : role = .statement
  · subst place
    obtain ⟨j, rfl⟩ : ∃ j, k = j + 1 := ⟨k - 1, by omega⟩
    exact readsLine_of_construct written (begins (upTo j)) (construct j (by omega))
  · refine readBack_of_bare noBlock place room fun j room rest => ?_
    have reads := construct j room (.symbol .rparen :: rest) (closed_symbol rfl rest)
    rw [decide_eq_true place, written, List.cons_append] at reads
    rw [written, List.cons_append]
    exact reads_keyword (operand (upTo j)) _ reads rfl

theorem retain_of_place {retain : Bool} {role : Role} (place : retain = false ↔ role = .statement) :
    decide (role ≠ .statement) = retain := by
  cases retain with
  | false => simpa using place
  | true => simpa using place

theorem length_asBranch (n : Node) (kinds : List TokenKind) :
    kinds.length < (n.asBranch kinds).length := by
  unfold Node.asBranch
  split
  · simp
  · simp [between]
    omega

theorem length_writtenItems {ns : List Node} {n : Node} (member : n ∈ ns) :
    n.written.length + 3 ≤ (Node.writtenItems ns).length := by
  induction ns with
  | nil => cases member
  | cons m ns ih =>
    simp only [Node.writtenItems, between, List.length_append, List.length_cons, List.length_nil]
    rcases List.mem_cons.1 member with rfl | later
    · omega
    · have := ih later
      omega

theorem length_writtenPairs {ps : List (Node × Node)} {p : Node × Node} (member : p ∈ ps) :
    p.1.written.length + p.2.written.length + 8 ≤ (Node.writtenPairs ps).length := by
  induction ps with
  | nil => cases member
  | cons q ps ih =>
    obtain ⟨key, value⟩ := q
    simp only [Node.writtenPairs, between, List.length_append, List.length_cons, List.length_nil]
    rcases List.mem_cons.1 member with rfl | later
    · dsimp only
      omega
    · have := ih later
      omega

theorem length_of_mem_writtenLines {ns : List Node} {n : Node} (member : n ∈ ns) :
    n.written.length < (Node.writtenLines ns).length := by
  induction ns with
  | nil => cases member
  | cons m ns ih =>
    simp only [Node.writtenLines, List.length_append, List.length_cons]
    rcases List.mem_cons.1 member with rfl | later
    · omega
    · have := ih later
      omega

mutual

/-- Every well-formed tree is read back. -/
theorem readBack_written : ∀ (n : Node) (role : Role) (c : Context) (k : Nat),
    n.WellFormed role c.inLoop → n.written.length + 1 < k → ReadBack k c n role
  | .constant l value, _, c, k, formed, room =>
    readBack_of_bare rfl formed.1 room fun _ _ _ => reads_constant l value rfl
  | .name l s, _, c, k, formed, room => by
    refine readBack_of_bare rfl formed.1 room fun _ _ rest => ?_
    have stops : Stops (.symbol .rparen :: rest) := rfl
    exact (reads_nameAlone s stops).imp fun _ ⟨_, same⟩ => same ▸ rfl
  | .block l body, role, c, k, formed, room => by
    simp only [Node.written, List.length_append, List.length_cons, List.length_nil] at room
    have inner : ∀ j, (Node.writtenLines body).length + 1 < j → ∀ n ∈ body,
        ReadsLine ((upTo j).statement { c with inBlock := true }) n := by
      intro j room n member
      have := length_of_mem_writtenLines member
      exact readBack_all body .statement { c with inBlock := true } formed.2 n member j (by omega)
    have lines := Node.allWellFormed_iff.1 formed.2
    cases role with
    | expression => exact absurd rfl formed.1
    | branch => exact readsBranch_of_block l fun rest => reads_block l lines (inner k (by omega)) rest
    | statement =>
      obtain ⟨j, rfl⟩ : ∃ j, k = j + 1 := ⟨k - 1, by omega⟩
      exact readsLine_of_construct rfl rfl fun rest _ =>
        reads_block l lines (inner j (by omega)) rest
  | .statement l value, role, c, k, formed, room => by
    obtain ⟨rfl, formed⟩ := formed
    obtain ⟨j, rfl⟩ : ∃ j, k = j + 1 := ⟨k - 1, by omega⟩
    simp only [Node.written, between, List.length_append, List.length_cons, List.length_nil] at room
    exact readsLine_statement l (readsBetween_of_room
      (fun k room => readBack_written value .expression c k formed room) (by omega))
  | .assign l target value, role, c, k, formed, room => by
    refine readBack_of_bare rfl formed.1 room fun j room rest => ?_
    simp only [Node.written, between, List.length_append, List.length_cons, List.length_nil] at room
    obtain ⟨-, assignable, targetFormed, valueFormed⟩ := formed
    have valueBetween : (upTo j).ReadsBetween c value := readsBetween_of_room
      (fun k room => readBack_written value .expression c k valueFormed room) (by omega)
    cases target with
    | name l' s =>
      refine reads_assign l (fun rest detached => ?_) (fun _ => rfl) rfl valueBetween rfl
      exact (reads_applied (reads_name s) detached).imp fun _ ⟨_, same⟩ => same ▸ rfl
    | index l' owner key =>
      simp only [Node.written, between, List.length_append, List.length_cons, List.length_nil]
        at room
      have ownerBare := readBack_written owner .expression c j targetFormed.2.1 (by omega)
      have keyBetween : (upTo j).ReadsBetween c key := readsBetween_of_room
        (fun k room => readBack_written key .expression c k targetFormed.2.2 room) (by omega)
      exact reads_assign l (fun rest detached => reads_index l' ownerBare keyBetween detached)
        (fun _ => rfl) rfl valueBetween rfl
    | _ => cases assignable
  | .call l callee args, role, c, k, formed, room => by
    refine readBack_of_bare rfl formed.1 room fun j room rest => ?_
    simp only [Node.written, List.length_append, List.length_cons, List.length_nil] at room
    refine reads_call l callee (fun n member => ?_) rfl
    have := length_writtenItems member
    exact readsBetween_of_room (readBack_all args .expression c formed.2.2 n member) (by omega)
  | .binary l left op right, role, c, k, formed, room => by
    refine readBack_of_bare rfl formed.1 room fun j room rest => ?_
    simp only [Node.written, between, List.length_append, List.length_cons, List.length_nil] at room
    have leftBare := readBack_written left .expression c j formed.2.1 (by omega)
    have rightBare := readBack_written right .expression c j formed.2.2 (by omega)
    rw [Node.written, List.append_assoc, List.cons_append]
    exact reads_binary (reads_factorBetween leftBare (detached_binary op _))
      (reads_factorBetween rightBare (closed_symbol rfl rest).stops.detached) rfl
      fun _ _ _ sameLeft sameRight => congrArg₂ (Node.binary default · op ·) sameLeft sameRight
  | .unary l op operand, role, c, k, formed, room => by
    refine readBack_of_bare rfl formed.1 room fun j room rest => ?_
    simp only [Node.written, between, List.length_append, List.length_cons, List.length_nil] at room
    exact reads_unary l op (readBack_written operand .expression c j formed.2 (by omega)) rfl
  | .logical l left op right, role, c, k, formed, room => by
    refine readBack_of_bare rfl formed.1 room fun j room rest => ?_
    simp only [Node.written, between, List.length_append, List.length_cons, List.length_nil] at room
    have leftBare := readBack_written left .expression c j formed.2.1 (by omega)
    have rightBare := readBack_written right .expression c j formed.2.2 (by omega)
    rw [Node.written, List.append_assoc, List.cons_append]
    exact reads_logical (reads_factorBetween leftBare (detached_logical op _))
      (reads_factorBetween rightBare (closed_symbol rfl rest).stops.detached) rfl
      fun _ _ _ sameLeft sameRight => congrArg₂ (Node.logical default · op ·) sameLeft sameRight
  | .conditional l test yes none, role, c, k, formed, room => by
    refine readBack_of_construct rfl rfl (fun g _ => g.conditional c) (fun _ _ => rfl)
      (fun _ => rfl) room fun j room rest closed => ?_
    have yesLength := length_asBranch yes yes.written
    simp only [Node.written, between, List.length_append, List.length_cons, List.length_nil] at room
    exact reads_conditional l (readBack_written test .expression c j formed.1 (by omega))
      (readBack_written yes .branch c j formed.2 (by omega)) closed
  | .conditional l test yes (some no), role, c, k, formed, room => by
    refine readBack_of_construct rfl rfl (fun g _ => g.conditional c) (fun _ _ => rfl)
      (fun _ => rfl) room fun j room rest closed => ?_
    have yesLength := length_asBranch yes yes.written
    have noLength := length_asBranch no no.written
    simp only [Node.written, between, List.length_append, List.length_cons, List.length_nil] at room
    exact reads_conditionalElse l (readBack_written test .expression c j formed.1 (by omega))
      (readBack_written yes .branch c j formed.2.1 (by omega))
      (readBack_written no .branch c j formed.2.2 (by omega)) closed.stops
  | .index l owner key, role, c, k, formed, room => by
    refine readBack_of_bare rfl formed.1 room fun j room rest => ?_
    simp only [Node.written, between, List.length_append, List.length_cons, List.length_nil] at room
    have ownerBare := readBack_written owner .expression c j formed.2.1 (by omega)
    have keyBetween : (upTo j).ReadsBetween c key := readsBetween_of_room
      (fun k room => readBack_written key .expression c k formed.2.2 room) (by omega)
    have stops : Stops (.symbol .rparen :: rest) := rfl
    exact reads_of_factor (reads_factor (reads_index l ownerBare keyBetween stops.detached) rfl)
      stops
  | .object l properties, role, c, k, formed, room => by
    refine readBack_of_bare rfl formed.1 room fun j room rest => ?_
    simp only [Node.written, List.length_append, List.length_cons, List.length_nil] at room
    refine reads_object l (fun p member => ?_) rfl
    have := length_writtenPairs member
    obtain ⟨key, value⟩ := readBack_pairs properties c formed.2 p member
    exact ⟨readsBetween_of_room key (by omega), readsBetween_of_room value (by omega)⟩
  | .array l items, role, c, k, formed, room => by
    refine readBack_of_bare rfl formed.1 room fun j room rest => ?_
    simp only [Node.written, List.length_append, List.length_cons, List.length_nil] at room
    refine reads_array l (fun n member => ?_) rfl
    have := length_writtenItems member
    exact readsBetween_of_room (readBack_all items .expression c formed.2 n member) (by omega)
  | .whileLoop l test body retain, role, c, k, formed, room => by
    refine readBack_of_construct rfl rfl (fun g retain => g.whileLoop c retain) (fun _ _ => rfl)
      (fun _ => rfl) room fun j room rest closed => ?_
    have bodyLength := length_asBranch body body.written
    simp only [Node.written, between, List.length_append, List.length_cons, List.length_nil] at room
    have testBare := readBack_written test .expression c j formed.2.1 (by omega)
    have bodyBranch := readBack_written body .branch { c with inLoop := true } j formed.2.2
      (by omega)
    rw [retain_of_place formed.1]
    exact reads_whileLoop l testBare bodyBranch retain closed.stops
  | .countLoop l counter first bound way step body retain, role, c, k, formed, room => by
    refine readBack_of_construct rfl rfl (fun g retain => g.forLoop c retain) (fun _ _ => rfl)
      (fun _ => rfl) room fun j room rest closed => ?_
    have bodyLength := length_asBranch body body.written
    simp only [Node.written, between, List.length_append, List.length_cons, List.length_nil] at room
    obtain ⟨place, -, firstFormed, boundFormed, stepFormed, bodyFormed⟩ := formed
    obtain ⟨i, rfl⟩ : ∃ i, j = i + 1 := ⟨j - 1, by omega⟩
    have firstBetween : (upTo i).ReadsBetween c first := readsBetween_of_room
      (fun k room => readBack_written first .expression c k firstFormed room) (by omega)
    have boundBetween : (upTo (i + 1)).ReadsBetween c bound := readsBetween_of_room
      (fun k room => readBack_written bound .expression c k boundFormed room) (by omega)
    have stepBetween : (upTo (i + 1)).ReadsBetween c step := readsBetween_of_room
      (fun k room => readBack_written step .expression c k stepFormed room) (by omega)
    have bodyBranch := readBack_written body .branch { c with inLoop := true } (i + 1) bodyFormed
      (by omega)
    rw [retain_of_place place]
    exact reads_forLoop l counter (fun _ stops => reads_header counter.item firstBetween stops)
      boundBetween stepBetween bodyBranch way retain closed.stops
  | .eachLoop l target items body retain, role, c, k, formed, room => by
    obtain ⟨rfl, -, itemsFormed, bodyFormed⟩ := formed
    refine readBack_of_construct rfl rfl (fun g retain => g.forLoop c retain) (fun _ _ => rfl)
      (fun _ => rfl) room fun j room rest closed => ?_
    have bodyLength := length_asBranch body body.written
    simp only [Node.written, between, List.length_append, List.length_cons, List.length_nil] at room
    obtain ⟨i, rfl⟩ : ∃ i, j = i + 1 := ⟨j - 1, by omega⟩
    have itemsBetween : (upTo (i + 1)).ReadsBetween c items := readsBetween_of_room
      (fun k room => readBack_written items .expression c k itemsFormed room) (by omega)
    have bodyBranch := readBack_written body .branch { c with inLoop := true } (i + 1) bodyFormed
      (by omega)
    exact reads_forEach l target (fun name _ stops => reads_nameAlone name stops) itemsBetween
      bodyBranch _ closed.stops
  | .breakLoop l, role, c, k, formed, room => by
    refine readBack_of_bare rfl formed.1 room fun j _ rest => ?_
    have word : ∀ token, (upTo j).keywordOperand c token .breakKw = single .breakLoop :=
      fun _ => if_pos formed.2
    exact reads_keyword word _ (reads_single fun _ => rfl) rfl
  | .continueLoop l, role, c, k, formed, room => by
    refine readBack_of_bare rfl formed.1 room fun j _ rest => ?_
    have word : ∀ token, (upTo j).keywordOperand c token .continueKw = single .continueLoop :=
      fun _ => if_pos formed.2
    exact reads_keyword word _ (reads_single fun _ => rfl) rfl
  | .returnValue l none, role, c, k, formed, room =>
    readBack_of_bare rfl formed room fun _ _ rest =>
      reads_keyword (fun _ => rfl) _ (reads_returnNone l rest) rfl
  | .returnValue l (some value), role, c, k, formed, room => by
    refine readBack_of_bare rfl formed.1 room fun j room rest => ?_
    simp only [Node.written, between, List.length_append, List.length_cons, List.length_nil] at room
    have valueBetween : (upTo j).ReadsBetween c value := readsBetween_of_room
      (fun k room => readBack_written value .expression c k formed.2 room) (by omega)
    exact reads_keyword (fun _ => rfl) _ (reads_returnSome l valueBetween rfl) rfl

theorem readBack_all : ∀ (ns : List Node) (role : Role) (c : Context),
    Node.AllWellFormed role c.inLoop ns → ∀ n ∈ ns, ∀ k, n.written.length + 1 < k →
      ReadBack k c n role
  | [], _, _, _ => by simp
  | n :: ns, role, c, formed => by
    intro m member
    rcases List.mem_cons.1 member with same | later
    · rw [same]
      exact fun k room => readBack_written n role c k formed.1 room
    · exact readBack_all ns role c formed.2 m later

theorem readBack_pairs : ∀ (ps : List (Node × Node)) (c : Context),
    Node.AllWellFormedPairs c.inLoop ps → ∀ p ∈ ps,
      (∀ k, p.1.written.length + 1 < k → ReadBack k c p.1 .expression) ∧
        ∀ k, p.2.written.length + 1 < k → ReadBack k c p.2 .expression
  | [], _, _ => by simp
  | (key, value) :: ps, c, formed => by
    intro p member
    rcases List.mem_cons.1 member with same | later
    · rw [same]
      exact ⟨fun k room => readBack_written key .expression c k formed.1 room,
        fun k room => readBack_written value .expression c k formed.2.1 room⟩
    · exact readBack_pairs ps c formed.2.2 p later

end

theorem reads_program {d : Dictionary} {ns : List Node}
    (formed : ∀ n ∈ ns, n.WellFormed .statement false) :
    Reads (program d) (Node.writtenLines ns) [] (List.Forall₂ Node.Same ns) := by
  refine reads_remaining.bind ?_
  rintro _ rfl
  refine reads_programUpTo formed (fun n member => ?_) (Nat.lt_succ_of_le (length_writtenLines ns))
    (.inl rfl)
  have := length_of_mem_writtenLines member
  exact readBack_written n .statement { dictionary := d } _ (formed n member) (by omega)

end Grammar

namespace Program

/-- Every well-formed body is read from some script. -/
theorem exists_parse {languages : Languages} (standard : languages.standard = .english)
    {body : List Node} (formed : ∀ n ∈ body, n.WellFormed .statement false) :
    ∃ source p, (Reading.ofSource languages source).dictionary = .english ∧
      parse languages source = .ok p ∧ p.body.map Node.erase = body.map Node.erase := by
  have legible := Node.AllWellFormed.legibleLines body (Node.allWellFormed_iff.2 formed)
  have plain : (Node.writtenLines body).head? ≠ some (.symbol .lt) := by
    cases body with
    | nil => simp [Node.writtenLines]
    | cons n ns =>
      obtain ⟨kind, kinds, written, starts⟩ := (formed n (by simp)).exists_first
      rw [Node.writtenLines, written]
      intro same
      cases same
      cases starts
  obtain ⟨source, tokens, english, read, kinds⟩ := Reading.exists_source standard legible plain
  obtain ⟨ns, u, run, -, same⟩ := Grammar.reads_program formed
    { rest := tokens, eof := (Reading.ofSource languages source).eof } ⟨kinds, rfl⟩
  refine ⟨source, ⟨anonymous, source, ns⟩, english, ?_, ?_⟩
  · rw [parse, ofReading_of_tokens read, run]
    rfl
  · have all := Node.Same.all same
    rwa [Node.mapLocAll_eq_map, Node.mapLocAll_eq_map] at all

end Program

end Polyglot
