import Polyglot.Proofs.Lexing.Cutting

/-!
# Where tokens stand

A token is a significant lexeme of its script under the dictionary in effect: it stands where the
lexeme stands and has its text. So tokens and lexical faults are located soundly, and tokens follow
each other in the order of the script.
-/

namespace Polyglot

/-! ## One token -/

namespace Token

/-- A token has the text and the place of its lexeme, whose kind decides its own. -/
theorem eq_of_ofLexeme {d : Dictionary} {l : Located Lexeme} {token : Token}
    (read : ofLexeme d l = .ok token) :
    kindOf d l.item = .ok token.kind ∧ token.text = String.ofList l.item.text ∧
      token.loc = l.loc := by
  unfold ofLexeme at read
  split at read
  · rename_i kind known
    cases read
    exact ⟨known, rfl, rfl⟩
  · cases read

/-- Where a token or a lexical fault stands. -/
def place : Except CompileError Token → Location
  | .ok token => token.loc
  | .error e => e.loc

@[simp] theorem place_ofLexeme (d : Dictionary) (l : Located Lexeme) :
    place (ofLexeme d l) = l.loc := by
  unfold ofLexeme
  cases kindOf d l.item <;> rfl

theorem kindOf_ne_eof {d : Dictionary} {l : Lexeme} {kind : TokenKind}
    (known : kindOf d l = .ok kind) : kind ≠ .eof := by
  rintro rfl
  obtain ⟨lexical, text⟩ := l
  cases lexical with
  | word =>
    unfold kindOf at known
    cases found : d.lookup (String.ofList text) <;> simp [found] at known
  | number n => cases n <;> cases known
  | blank | eol | text | symbol | stray | faulty => cases known

theorem not_faulty_of_kindOf {d : Dictionary} {l : Lexeme} {kind : TokenKind}
    (known : kindOf d l = .ok kind) : ∀ fault, l.kind ≠ .faulty fault := by
  intro fault faulty
  unfold kindOf at known
  rw [faulty] at known
  cases known

end Token

/-! ## The tokens of a script -/

namespace Reading

variable {languages : Languages} {source : String} {tokens : List Token}

/-- The significant lexemes of a script that are not part of its directive. -/
def lexemes (source : String) : List (Located Lexeme) :=
  (splitDirective (significant source.toList)).2

/-- Every significant lexeme stands in the text, and is what is cut off there. -/
theorem exists_of_mem_significant {x : Located Lexeme} (member : x ∈ significant source.toList) :
    x.item.isSignificant = true ∧
    ∃ before c ds after, source.toList = before ++ x.item.text ++ after ∧
      x.item.text = c :: ds ∧ Lexeme.next c (ds ++ after) = (x.item, after) ∧
      x.loc = (({} : Cursor).pass before).locate x.item.text := by
  obtain ⟨placed, significant⟩ := List.mem_filter.1 member
  obtain ⟨before, c, ds, after, whole, read, text, loc⟩ := Lexeme.exists_of_mem_place placed
  refine ⟨significant, before, c, ds, after, ?_, text, read, loc⟩
  rw [text]
  exact whole

theorem sound_of_mem_significant {x : Located Lexeme} (member : x ∈ significant source.toList) :
    x.loc.Sound source := by
  obtain ⟨-, before, c, ds, after, whole, -, -, loc⟩ := exists_of_mem_significant member
  rw [loc]
  exact Location.sound_locate whole

theorem pairwise_significant (text : List Char) :
    (significant text).Pairwise fun x y => x.loc.span.Before y.loc.span :=
  (Lexeme.pairwise_place {} (Lexeme.all text)).filter _

theorem splitDirective_singleton (x : Located Lexeme) : splitDirective [x] = (none, [x]) := by
  unfold splitDirective
  split
  · rename_i same
    simp at same
  · rfl

/-- A script that is one significant lexeme is read as one item. -/
theorem items_of_single (languages : Languages) {l : Lexeme} (only : Lexeme.all source.toList = [l])
    (significant : l.isSignificant = true) :
    (ofSource languages source).items =
      [Token.ofLexeme languages.standard ⟨l, ({} : Cursor).locate l.text⟩] := by
  have kept : Reading.significant source.toList = [⟨l, ({} : Cursor).locate l.text⟩] := by
    rw [Reading.significant, only]
    simp [Lexeme.place, significant]
  have plain : splitDirective (Reading.significant source.toList) =
      (none, [⟨l, ({} : Cursor).locate l.text⟩]) := by
    rw [kept, splitDirective_singleton]
  show (splitDirective _).2.map (Token.ofLexeme (choose languages (splitDirective _).1)) = _
  rw [plain]
  rfl

/-- What a directive is written as. -/
def marksOf : Option String → List String
  | some tag => ["<", tag, ">"]
  | none => []

/-- Before the lexemes of a script stand those of its directive. -/
theorem exists_marks (source : String) :
    ∃ marks, significant source.toList = marks ++ lexemes source ∧
      marks.map (fun x => String.ofList x.item.text) =
        marksOf (splitDirective (significant source.toList)).1 := by
  have spelled : ∀ x ∈ significant source.toList, ∀ s, x.item.kind = .symbol s →
      String.ofList x.item.text = s.spelling := by
    intro x member s symbol
    obtain ⟨-, before, c, ds, after, -, text, read, -⟩ := exists_of_mem_significant member
    have first : (Lexeme.next c (ds ++ after)).1 = x.item := by rw [read]
    rw [← first] at symbol ⊢
    rw [Lexeme.text_of_symbol symbol, String.ofList_toList]
  unfold lexemes
  generalize significant source.toList = ls at spelled
  unfold splitDirective
  split
  · rename_i opening l tag l' closing l'' rest
    refine ⟨[⟨⟨.symbol .lt, opening⟩, l⟩, ⟨⟨.word, tag⟩, l'⟩, ⟨⟨.symbol .gt, closing⟩, l''⟩], rfl, ?_⟩
    have lt := spelled ⟨⟨.symbol .lt, opening⟩, l⟩ (by simp) .lt rfl
    have gt := spelled ⟨⟨.symbol .gt, closing⟩, l''⟩ (by simp) .gt rfl
    simp only [List.map_cons, List.map_nil, lt, gt]
    rfl
  · exact ⟨[], rfl, rfl⟩

/-- The tokens of a script are those of its lexemes. -/
theorem map_lexemes (read : (ofSource languages source).tokens = .ok tokens) :
    (lexemes source).map (Token.ofLexeme (ofSource languages source).dictionary) =
      tokens.map .ok :=
  items_of_tokens read

theorem exists_lexeme (read : (ofSource languages source).tokens = .ok tokens) {token : Token}
    (member : token ∈ tokens) :
    ∃ x ∈ lexemes source,
      Token.ofLexeme (ofSource languages source).dictionary x = .ok token := by
  have listed : Except.ok token ∈ tokens.map (Except.ok (ε := CompileError)) :=
    List.mem_map_of_mem member
  rw [← map_lexemes read] at listed
  exact List.mem_map.1 listed

theorem mem_significant_of_mem_lexemes {x : Located Lexeme} (member : x ∈ lexemes source) :
    x ∈ significant source.toList :=
  mem_of_mem_splitDirective member

/-- Tokens stand where they are said to. -/
theorem sound_of_mem_tokens (read : (ofSource languages source).tokens = .ok tokens) {token : Token}
    (member : token ∈ tokens) : token.loc.Sound source := by
  obtain ⟨x, listed, formed⟩ := exists_lexeme read member
  rw [(Token.eq_of_ofLexeme formed).2.2]
  exact sound_of_mem_significant (mem_significant_of_mem_lexemes listed)

theorem kind_ne_eof (read : (ofSource languages source).tokens = .ok tokens) {token : Token}
    (member : token ∈ tokens) : token.kind ≠ .eof := by
  obtain ⟨x, -, formed⟩ := exists_lexeme read member
  exact Token.kindOf_ne_eof (Token.eq_of_ofLexeme formed).1

theorem map_loc_lexemes (read : (ofSource languages source).tokens = .ok tokens) :
    (lexemes source).map Located.loc = tokens.map Token.loc := by
  have places := congrArg (List.map Token.place) (map_lexemes read)
  simp only [List.map_map, Function.comp_def, Token.place_ofLexeme] at places
  exact places

/-- Tokens follow each other in the script. -/
theorem pairwise_tokens (read : (ofSource languages source).tokens = .ok tokens) :
    (tokens.map Token.loc).Pairwise fun l l' => l.span.Before l'.span := by
  obtain ⟨marks, whole, -⟩ := exists_marks source
  have ordered := pairwise_significant source.toList
  rw [whole] at ordered
  rw [← map_loc_lexemes read, List.pairwise_map]
  exact (List.pairwise_append.1 ordered).2.1

/-- The end of a script stands at its end. -/
theorem sound_eof (languages : Languages) (source : String) :
    (ofSource languages source).eof.loc.Sound source := by
  have whole : source.toList = source.toList ++ [] ++ [] := by simp
  exact Location.sound_locate whole

theorem span_eof (languages : Languages) (source : String) :
    (ofSource languages source).eof.loc.span = ⟨source.utf8ByteSize, source.utf8ByteSize⟩ := by
  have stop : (({} : Cursor).pass source.toList).offset = source.utf8ByteSize := by
    simp
  show Span.mk _ _ = _
  rw [Cursor.pass_nil, stop]

theorem mem_of_mapM_error {items : List (Except CompileError Token)} {e : CompileError}
    (failed : (items.mapM fun item => item) = .error e) : Except.error e ∈ items := by
  induction items with
  | nil => cases failed
  | cons item items ih =>
    rw [List.mapM_cons] at failed
    cases item with
    | error e' =>
      cases failed
      exact List.mem_cons_self
    | ok token =>
      cases rest : (items.mapM fun item => item) with
      | error e' =>
        rw [rest] at failed
        cases failed
        exact List.mem_cons_of_mem _ (ih rest)
      | ok tokens =>
        rw [rest] at failed
        cases failed

/-- A lexical fault is located where the faulty lexeme stands. -/
theorem sound_of_fault {e : CompileError} (failed : (ofSource languages source).tokens = .error e) :
    e.loc.Sound source := by
  obtain ⟨x, member, formed⟩ := List.mem_map.1 (mem_of_mapM_error failed)
  have loc := Token.place_ofLexeme (ofSource languages source).dictionary x
  have same : e.loc = x.loc := by
    rw [← loc]
    exact (congrArg Token.place formed).symm
  rw [same]
  exact sound_of_mem_significant (mem_of_mem_splitDirective member)

end Reading

end Polyglot
