import Polyglot.Proofs.Lexing.Tokens

/-!
# Tokens tile their script

The tokens of a script, the directive before them and the blanks and comments between them make up
the whole script. Each token has the text that stands at its place, follows the one before it, and
is what its own text is read as.
-/

namespace Polyglot

/-- The span covers a run of blanks or a comment of the text. -/
def Span.IsBlank (source : String) (s : Span) : Prop :=
  ∃ before text after, source.toList = before ++ text ++ after ∧
    s = ((({} : Cursor).pass before).locate text).span ∧ Lexeme.IsBlank text after

/-- Read alone under the dictionary, the text of the token is one token of the same kind. -/
def Token.ReadsAlone (d : Dictionary) (token : Token) : Prop :=
  ∀ languages : Languages, languages.standard = d →
    ∃ token', (Reading.ofSource languages token.text).tokens = .ok [token'] ∧
      token'.kind = token.kind

namespace Reading

/-- The tokens, and the end behind them, are what a text is made of. -/
structure Tiles (source : String) (r : Reading) (tokens : List Token) : Prop where
  /-- The end has no text and stands at the end. -/
  eof : r.eof.kind = .eof ∧ r.eof.text = "" ∧
    r.eof.loc.span = ⟨source.utf8ByteSize, source.utf8ByteSize⟩ ∧ r.eof.loc.Sound source
  /-- A token has a text of its own, the one that stands at its place. -/
  placed : ∀ token ∈ tokens, token.kind ≠ .eof ∧ token.loc.Sound source ∧
    token.loc.span.start < token.loc.span.stop ∧ token.text = token.loc.span.slice source
  alone : ∀ token ∈ tokens, token.ReadsAlone r.dictionary
  /-- The directive and the tokens follow each other, and what is between them is blank. -/
  whole : ∃ marks : List Span, marks.map (Span.slice source) = marksOf r.directive ∧
    (marks ++ tokens.map fun token => token.loc.span).Pairwise Span.Before ∧
    ∀ offset < source.utf8ByteSize,
      (∃ s ∈ marks ++ tokens.map fun token => token.loc.span, s.Has offset) ∨
      ∃ s, s.IsBlank source ∧ s.Has offset ∧
        ∀ t ∈ marks ++ tokens.map fun token => token.loc.span, s.Before t ∨ t.Before s

variable {languages : Languages} {source : String} {tokens : List Token}

theorem slice_of_mem_significant {x : Located Lexeme} (member : x ∈ significant source.toList) :
    x.loc.span.slice source = String.ofList x.item.text ∧ x.loc.span.start < x.loc.span.stop := by
  obtain ⟨-, before, c, ds, after, whole, text, -, loc⟩ := exists_of_mem_significant member
  have size := c.utf8Size_pos
  rw [loc]
  refine ⟨Span.slice_locate whole, ?_⟩
  rw [Cursor.start_locate, Cursor.stop_locate, text, String.utf8Len_cons]
  omega

/-- A lexeme that gave a token gives one of the same kind when its text is read alone. -/
theorem readsAlone_of_lexeme {d : Dictionary} {x : Located Lexeme} {token : Token}
    (member : x ∈ significant source.toList) (formed : Token.ofLexeme d x = .ok token) :
    token.ReadsAlone d := by
  rintro languages' rfl
  obtain ⟨kind, sameText, -⟩ := Token.eq_of_ofLexeme formed
  obtain ⟨isSignificant, before, c, ds, after, -, text, read, -⟩ :=
    exists_of_mem_significant member
  have only : Lexeme.all x.item.text = [x.item] :=
    Lexeme.all_text read text (Token.not_faulty_of_kindOf kind) isSignificant
  refine ⟨⟨token.kind, String.ofList x.item.text, ({} : Cursor).locate x.item.text⟩, ?_, rfl⟩
  have items : (ofSource languages' token.text).items =
      [.ok ⟨token.kind, String.ofList x.item.text, ({} : Cursor).locate x.item.text⟩] := by
    rw [items_of_single languages' (by rw [sameText, String.toList_ofList, only]) isSignificant,
      Token.ofLexeme, kind]
  rw [Reading.tokens, items]
  rfl

/-- Every byte of a text is part of a significant lexeme or of blanks beside all of them. -/
theorem exists_lexeme_at {offset : Nat} (inside : offset < source.utf8ByteSize) :
    (∃ x ∈ significant source.toList, x.loc.span.Has offset) ∨
    ∃ s : Span, s.IsBlank source ∧ s.Has offset ∧
      ∀ x ∈ significant source.toList, s.Before x.loc.span ∨ x.loc.span.Before s := by
  have upTo : offset < ({} : Cursor).offset +
      String.utf8Len ((Lexeme.all source.toList).flatMap Lexeme.text) := by
    rw [Lexeme.flatMap_all, String.utf8Len_toList, Nat.zero_add]
    exact inside
  obtain ⟨x, placed, has⟩ := Lexeme.exists_has_of_place (Nat.zero_le offset) upTo
  by_cases idle : x.item.isSignificant = true
  · exact .inl ⟨x, List.mem_filter.2 ⟨placed, idle⟩, has⟩
  · obtain ⟨before, c, ds, after, whole, read, text, loc⟩ := Lexeme.exists_of_mem_place placed
    have first : (Lexeme.next c (ds ++ after)).1 = x.item := by rw [read]
    have rest : (Lexeme.next c (ds ++ after)).2 = after := by rw [read]
    have blank : Lexeme.IsBlank x.item.text after := by
      have idle' : (Lexeme.next c (ds ++ after)).1.isSignificant = false := by
        rw [first]
        simpa using idle
      have cut := Lexeme.isBlank_next idle'
      rwa [first, rest] at cut
    refine .inr ⟨x.loc.span, ⟨before, x.item.text, after, ?_, ?_, blank⟩, has, ?_⟩
    · rw [text]
      exact whole
    · rw [loc]
    · intro y member
      obtain ⟨listed, busy⟩ := List.mem_filter.1 member
      obtain ⟨earlier, later, split⟩ := List.append_of_mem placed
      have ordered := Lexeme.pairwise_place {} (Lexeme.all source.toList)
      rw [split] at ordered listed
      obtain ⟨-, onwards, across⟩ := List.pairwise_append.1 ordered
      rcases List.mem_append.1 listed with before | here
      · exact .inr (across y before x List.mem_cons_self)
      · rcases List.mem_cons.1 here with rfl | after
        · exact absurd busy idle
        · exact .inl ((List.pairwise_cons.1 onwards).1 y after)

/-- The tokens of every script that can be read tile it. -/
theorem tokens_tile (read : (ofSource languages source).tokens = .ok tokens) :
    Tiles source (ofSource languages source) tokens := by
  obtain ⟨marks, whole, written⟩ := exists_marks source
  have spans : (marks.map fun x => x.loc.span) ++ (tokens.map fun token => token.loc.span) =
      (significant source.toList).map fun x => x.loc.span := by
    have tail := congrArg (List.map Location.span) (map_loc_lexemes read)
    rw [List.map_map, List.map_map] at tail
    rw [whole, List.map_append]
    exact congrArg (_ ++ ·) tail.symm
  refine ⟨⟨rfl, rfl, span_eof languages source, sound_eof languages source⟩, ?_, ?_,
    marks.map fun x => x.loc.span, ?_, ?_, ?_⟩
  · intro token member
    obtain ⟨x, listed, formed⟩ := exists_lexeme read member
    obtain ⟨-, text, loc⟩ := Token.eq_of_ofLexeme formed
    obtain ⟨slice, some⟩ := slice_of_mem_significant (mem_significant_of_mem_lexemes listed)
    refine ⟨kind_ne_eof read member, sound_of_mem_tokens read member, ?_, ?_⟩
    · rw [loc]
      exact some
    · rw [loc, slice, text]
  · intro token member
    obtain ⟨x, listed, formed⟩ := exists_lexeme read member
    exact readsAlone_of_lexeme (mem_significant_of_mem_lexemes listed) formed
  · have slices : ∀ x ∈ marks, x.loc.span.slice source = String.ofList x.item.text := by
      intro x member
      refine (slice_of_mem_significant ?_).1
      rw [whole]
      exact List.mem_append_left _ member
    rw [List.map_map]
    exact (List.map_congr_left slices).trans written
  · rw [spans, List.pairwise_map]
    exact pairwise_significant source.toList
  · intro offset inside
    rw [spans]
    rcases exists_lexeme_at inside with ⟨x, member, has⟩ | ⟨s, blank, has, apart⟩
    · exact .inl ⟨x.loc.span, List.mem_map_of_mem member, has⟩
    · refine .inr ⟨s, blank, has, ?_⟩
      intro t member
      obtain ⟨x, listed, rfl⟩ := List.mem_map.1 member
      exact apart x listed

/-- A French script with two comments, of which the first ends before the line does. -/
def commentedScript : String := "<fr> x = #* é *# \"è\" # y\n0x1F"

theorem tokens_tile_commented :
    (ofSource .builtin commentedScript).tokens = .ok (builtinTokens commentedScript) ∧
    (builtinTokens commentedScript).map Token.text = ["x", "=", "\"è\"", "\n", "0x1F"] ∧
    Tiles commentedScript (ofSource .builtin commentedScript) (builtinTokens commentedScript) := by
  have read := tokens_builtin commentedScript (by decide +kernel)
  exact ⟨read, by decide +kernel, tokens_tile read⟩

end Reading

end Polyglot
