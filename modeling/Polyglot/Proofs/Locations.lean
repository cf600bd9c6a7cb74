import Polyglot.Proofs.Lexing.Tokens
import Polyglot.Proofs.Parsing.PlacedRules

/-!
# Locations in accepted and rejected scripts

Every node of an accepted script, and every name in a call or a loop header, is located soundly:
inside the node around it, and after the parts of that node that are written before it. A rejected
script is rejected at a sound location.
-/

namespace Polyglot

/-- The node has a sound location, its parts have such locations inside, and these follow each
other. -/
structure Node.WellPlaced (source : String) (n : Node) : Prop where
  sound : n.loc.Sound source
  parts : ∀ part ∈ n.parts, part.Sound source ∧ part.span.Inside n.loc.span
  ordered : n.parts.Pairwise fun part part' => part.span.Before part'.span

theorem Node.Placed.wellPlaced {source : String} {n : Node} (placed : n.Placed source) :
    n.WellPlaced source := by
  refine ⟨placed.sound, ?_, placed.parts.pairwise⟩
  intro part member
  exact ⟨placed.parts.sound part member, placed.parts.inside part member⟩

namespace Program

variable {languages : Languages} {source name : String}

/-- The tokens of a script make a placed tape. -/
theorem placed_tape {tokens : List Token}
    (read : (Reading.ofSource languages source).tokens = .ok tokens) :
    Tape.Placed source { rest := tokens, eof := (Reading.ofSource languages source).eof } := by
  have size := Reading.span_eof languages source
  have ordered := Reading.pairwise_tokens read
  rw [List.pairwise_map] at ordered
  have begins : source.toList = [] ++ source.toList := rfl
  refine ⟨?_, ?_, ?_, isBoundary_utf8Len begins, rfl⟩
  · intro token member
    rcases List.mem_append.1 member with listed | last
    · exact Reading.sound_of_mem_tokens read listed
    · rw [List.mem_singleton.1 last]
      exact Reading.sound_eof languages source
  · rw [List.pairwise_append]
    refine ⟨ordered, List.pairwise_singleton _ _, ?_⟩
    intro token listed last isLast
    rw [List.mem_singleton.1 isLast, Span.Before, size]
    exact (Reading.sound_of_mem_tokens read listed).inside
  · intro token _
    exact Nat.zero_le _

/-- A script is accepted as placed statements one after the other, or rejected at a sound
location. -/
theorem parse_cases (languages : Languages) (source name : String) :
    (∃ body, parse languages source name = .ok ⟨name, source, body⟩ ∧
      (∀ n ∈ body, n.Placed source) ∧ ∃ last, Row source 0 (body.map Node.loc) last) ∨
    ∃ e, parse languages source name = .error e ∧ e.loc.Sound source := by
  unfold parse
  cases read : (Reading.ofSource languages source).tokens with
  | error e =>
    have failed : ofReading name source (Reading.ofSource languages source) = .error e := by
      unfold ofReading
      rw [read]
      rfl
    exact .inr ⟨e, failed, Reading.sound_of_fault read⟩
  | ok tokens =>
    have led := Grammar.led_program (placed_tape read)
      (Reading.ofSource languages source).dictionary
    rw [ofReading_of_tokens read]
    generalize (Grammar.program (Reading.ofSource languages source).dictionary).run _ = result
      at led
    cases led with
    | accepted placed holds => exact .inl ⟨_, rfl, holds.1, _, holds.2⟩
    | rejected sound => exact .inr ⟨_, rfl, sound⟩

/-- In every accepted script the statements follow each other and every node is well placed; and
every rejected script is rejected at a sound location. -/
theorem locations_sound (languages : Languages) (source name : String) :
    (∀ p, parse languages source name = .ok p →
      p.body.Pairwise (fun n m => n.loc.span.Before m.loc.span) ∧
      ∀ statement ∈ p.body, ∀ n : Node, n.Within statement → n.WellPlaced source) ∧
    ∀ e, parse languages source name = .error e → e.loc.Sound source := by
  rcases parse_cases languages source name with
    ⟨body, accepted, placed, last, row⟩ | ⟨e, failed, sound⟩
  · rw [accepted]
    refine ⟨?_, nofun⟩
    rintro _ ⟨⟩
    have ordered := row.pairwise
    rw [List.pairwise_map] at ordered
    refine ⟨ordered, ?_⟩
    intro statement member n within
    exact ((placed statement member).within within).wellPlaced
  · rw [failed]
    refine ⟨nofun, ?_⟩
    rintro _ ⟨⟩
    exact sound

/-- A loop without a written step, in a script with letters of two bytes. -/
def accentedLoop : String := "s = \"é\"\nfor i = 1 till 2 f(s, [i])"

/-- A script that ends inside a text with letters of two bytes. -/
def accentedFault : String := "s = \"é"

/-- Both statements of the loop are well placed, and what is rejected is the text that does not
end. -/
theorem locations_sound_accented :
    (∃ p n m, parse .builtin accentedLoop = .ok p ∧ p.body = [n, m] ∧
      n.loc.span.Before m.loc.span ∧ n.WellPlaced accentedLoop ∧ m.WellPlaced accentedLoop) ∧
    ∃ e, parse .builtin accentedFault = .error e ∧ e.loc.Sound accentedFault ∧
      e.loc = ⟨⟨4, 7⟩, ⟨1, 5⟩⟩ := by
  constructor
  · obtain ⟨p, accepted⟩ : ∃ p, parse .builtin accentedLoop = .ok p :=
      exists_of_isOk (by decide +kernel)
    have size : (parse .builtin accentedLoop).toOption.map (fun p => p.body.length) = some 2 := by
      decide +kernel
    rw [accepted] at size
    obtain ⟨n, m, body⟩ := List.length_eq_two.1 (Option.some.inj size)
    obtain ⟨ordered, placed⟩ := (locations_sound .builtin accentedLoop anonymous).1 p accepted
    rw [body] at ordered placed
    refine ⟨p, n, m, accepted, body, ?_, ?_, ?_⟩
    · simpa using ordered
    · exact placed n (by simp) n (.self n)
    · exact placed m (by simp) m (.self m)
  · have loc : (match parse .builtin accentedFault with
        | .ok _ => none
        | .error e => some e.loc) = some ⟨⟨4, 7⟩, ⟨1, 5⟩⟩ := by
      decide +kernel
    cases failed : parse .builtin accentedFault with
    | ok p =>
      rw [failed] at loc
      cases loc
    | error e =>
      rw [failed] at loc
      exact ⟨e, rfl, (locations_sound .builtin accentedFault anonymous).2 e failed,
        Option.some.inj loc⟩

end Program

end Polyglot
