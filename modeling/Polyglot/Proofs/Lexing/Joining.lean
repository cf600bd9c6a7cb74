import Polyglot.Proofs.Lexing.Tokens
import Polyglot.Proofs.Parsing.Agreement

/-!
# Scripts joined by a line end

Where no lexeme of a script goes on past the line end behind it, the tokens of the script, of the
line end and of a second script make up the tokens of all three together. The tokens of the first
script stay where they were, and those of the second are moved.
-/

namespace Polyglot

/-- Where two texts are cut at the same byte they are cut alike. -/
theorem eq_of_append_of_utf8Len {before before' after after' : List Char}
    (same : before ++ after = before' ++ after')
    (size : String.utf8Len before = String.utf8Len before') :
    before = before' ∧ after = after' := by
  rcases List.append_eq_append_iff.1 same with ⟨between, rfl, rfl⟩ | ⟨between, rfl, rfl⟩
  · rw [String.utf8Len_append] at size
    have none : between = [] := String.utf8Len_eq_zero.1 (by omega)
    simp [none]
  · rw [String.utf8Len_append] at size
    have none : between = [] := String.utf8Len_eq_zero.1 (by omega)
    simp [none]

namespace Lexeme

theorem place_append (k : Cursor) (ls ms : List Lexeme) :
    place k (ls ++ ms) = place k ls ++ place (k.pass (ls.flatMap Lexeme.text)) ms := by
  induction ls generalizing k with
  | nil => rfl
  | cons l ls ih =>
    rw [List.cons_append, place, place, ih, List.flatMap_cons, Cursor.pass_append, List.cons_append]

/-- Around a placed lexeme stand the lexemes before it and those after it. -/
theorem exists_append_of_mem_place {k : Cursor} {ls : List Lexeme} {x : Located Lexeme}
    (member : x ∈ place k ls) :
    ∃ earlier later, ls = earlier ++ x.item :: later ∧
      x.loc = (k.pass (earlier.flatMap Lexeme.text)).locate x.item.text := by
  induction ls generalizing k with
  | nil => cases member
  | cons l ls ih =>
    rw [place] at member
    rcases List.mem_cons.1 member with rfl | further
    · exact ⟨[], ls, rfl, rfl⟩
    · obtain ⟨earlier, later, rfl, loc⟩ := ih further
      refine ⟨l :: earlier, later, rfl, ?_⟩
      rw [List.flatMap_cons, Cursor.pass_append]
      exact loc

/-- Every lexeme covers some text. -/
theorem text_ne_nil {text : List Char} {l : Lexeme} (member : l ∈ all text) : l.text ≠ [] := by
  rw [← map_item_place {} (all text)] at member
  obtain ⟨x, placed, rfl⟩ := List.mem_map.1 member
  obtain ⟨_, c, ds, _, -, -, covered, -⟩ := exists_of_mem_place placed
  rw [covered]
  exact List.cons_ne_nil c ds

end Lexeme

theorem Token.kind_of_kindOf_eol {d : Dictionary} {l : Lexeme} (known : kindOf d l = .ok .eol)
    (significant : l.isSignificant = true) : l.kind = .eol := by
  obtain ⟨lexical, text⟩ := l
  cases lexical with
  | eol => rfl
  | blank => cases significant
  | word =>
    unfold kindOf at known
    cases found : d.lookup (String.ofList text) <;> simp [found] at known
  | number n => cases n <;> cases known
  | text | symbol | stray | faulty => cases known

namespace Reading

variable {languages : Languages} {source : String} {tokens : List Token}

/-- The line end behind a script is read as its last token, so nothing in the script goes on past
it. -/
def ClosesLine (languages : Languages) (source : String) : Prop :=
  ∃ tokens last, (ofSource languages (source ++ "\n")).tokens = .ok (tokens ++ [last]) ∧
    last.kind = .eol ∧ last.loc.span.start = source.utf8ByteSize

/-- A script that can be read has no faulty lexeme, in its directive neither. -/
theorem not_faulty_of_mem_significant (read : (ofSource languages source).tokens = .ok tokens)
    {x : Located Lexeme} (member : x ∈ significant source.toList) :
    ∀ fault, x.item.kind ≠ .faulty fault := by
  have listed := map_lexemes read
  have sound : ∀ y ∈ lexemes source, ∀ fault, y.item.kind ≠ .faulty fault := by
    intro y later
    have formed := List.mem_map_of_mem
      (f := Token.ofLexeme (ofSource languages source).dictionary) later
    rw [listed] at formed
    obtain ⟨token, -, same⟩ := List.mem_map.1 formed
    exact Token.not_faulty_of_kindOf (Token.eq_of_ofLexeme same.symm).1
  unfold lexemes splitDirective at sound
  split at sound
  · rename_i opening l tag l' closing l'' rest whole
    rw [whole] at member
    simp only [List.mem_cons] at member
    rcases member with rfl | rfl | rfl | later
    · exact fun fault => Lexeme.Kind.noConfusion
    · exact fun fault => Lexeme.Kind.noConfusion
    · exact fun fault => Lexeme.Kind.noConfusion
    · exact sound x later
  · exact sound x member

theorem not_faulty_of_mem_all (read : (ofSource languages source).tokens = .ok tokens) :
    ∀ l ∈ Lexeme.all source.toList, ∀ fault, l.kind ≠ .faulty fault := by
  intro l member
  rw [← Lexeme.map_item_place {} (Lexeme.all source.toList)] at member
  obtain ⟨x, placed, rfl⟩ := List.mem_map.1 member
  by_cases busy : x.item.isSignificant = true
  · exact not_faulty_of_mem_significant read (List.mem_filter.2 ⟨placed, busy⟩)
  · intro fault faulty
    rw [Lexeme.isSignificant_eq_false.1 (by simpa using busy)] at faulty
    cases faulty

/-- The line end is then a lexeme of its own. -/
theorem ClosesLine.exists_all (closes : ClosesLine languages source) :
    ∃ ls, Lexeme.all (source.toList ++ ['\n']) = ls ++ [⟨.eol, ['\n']⟩] ∧
      ∀ l ∈ ls, ∀ fault, l.kind ≠ .faulty fault := by
  obtain ⟨tokens, last, read, isEol, start⟩ := closes
  have chars : (source ++ "\n").toList = source.toList ++ ['\n'] := String.toList_append
  obtain ⟨x, listed, formed⟩ := exists_lexeme read (by simp : last ∈ tokens ++ [last])
  obtain ⟨kind, -, loc⟩ := Token.eq_of_ofLexeme formed
  obtain ⟨placed, busy⟩ := List.mem_filter.1 (mem_significant_of_mem_lexemes listed)
  rw [isEol] at kind
  rw [loc] at start
  have sound := not_faulty_of_mem_all read
  rw [chars] at placed sound
  obtain ⟨earlier, later, whole, place⟩ := Lexeme.exists_append_of_mem_place placed
  -- The lexeme begins where the script ends, so its text is what the line end leaves.
  have covered : earlier.flatMap Lexeme.text ++ (x.item.text ++ later.flatMap Lexeme.text) =
      source.toList ++ ['\n'] := by
    rw [← Lexeme.flatMap_all (source.toList ++ ['\n']), whole, List.flatMap_append,
      List.flatMap_cons]
  have size : String.utf8Len (earlier.flatMap Lexeme.text) = String.utf8Len source.toList := by
    rw [place, Cursor.start_locate, Cursor.offset_pass, Nat.zero_add] at start
    rw [start, String.utf8Len_toList]
  obtain ⟨-, rest⟩ := eq_of_append_of_utf8Len covered size
  have covers : ∀ l ∈ earlier ++ x.item :: later, l.text ≠ [] := by
    rw [← whole]
    intro l member
    exact Lexeme.text_ne_nil member
  obtain ⟨c, cs, text⟩ := List.exists_cons_of_ne_nil (covers x.item (by simp))
  rw [text, List.cons_append] at rest
  obtain ⟨rfl, nothing⟩ := List.cons.inj rest
  obtain ⟨noText, noLater⟩ := List.append_eq_nil_iff.1 nothing
  have last : later = [] := by
    cases later with
    | nil => rfl
    | cons l later =>
      rw [List.flatMap_cons] at noLater
      exact absurd (List.append_eq_nil_iff.1 noLater).1 (covers l (by simp))
  have lineEnd : x.item = ⟨.eol, ['\n']⟩ := by
    rw [← Token.kind_of_kindOf_eol kind busy, ← noText, ← text]
  refine ⟨earlier, ?_, ?_⟩
  · rw [whole, last, lineEnd]
  · intro l member
    apply sound
    rw [whole]
    exact List.mem_append_left _ member

/-! ## Joining -/

/-- The text of two scripts with a line end between them. -/
def join (first second : String) : String :=
  first ++ "\n" ++ second

/-- The significant lexemes of the first script, the line end, and those of the second script, which
begin behind it. -/
theorem ClosesLine.significant_join {first : String} (closes : ClosesLine languages first)
    (second : String) :
    significant (join first second).toList = significant first.toList ++
      ⟨⟨.eol, ['\n']⟩, (({} : Cursor).pass first.toList).locate ['\n']⟩ ::
        (Lexeme.place (({} : Cursor).pass (first.toList ++ ['\n']))
          (Lexeme.all second.toList)).filter fun l => l.item.isSignificant := by
  obtain ⟨ls, ends, sound⟩ := closes.exists_all
  have chars : (join first second).toList = first.toList ++ '\n' :: second.toList := by
    simp [join]
  have alone : Lexeme.all first.toList = ls := by
    have cut := Lexeme.all_append ends sound atLineEnd_nil
    rwa [List.append_nil, Lexeme.all_nil, List.append_nil] at cut
  have lineEnd : Lexeme.all ('\n' :: second.toList) =
      ⟨.eol, ['\n']⟩ :: Lexeme.all second.toList := Lexeme.all_cons _ _
  have joined : Lexeme.all (join first second).toList =
      Lexeme.all first.toList ++ ⟨.eol, ['\n']⟩ :: Lexeme.all second.toList := by
    rw [chars, alone, ← lineEnd]
    apply Lexeme.all_append ends sound
    intro c isFirst
    cases isFirst
    rfl
  unfold significant
  rw [joined, Lexeme.place_append, Lexeme.flatMap_all, List.filter_append, Lexeme.place,
    List.filter_cons_of_pos rfl, Cursor.pass_append]

/-- A line end keeps what follows it from making a directive of what comes before. -/
theorem splitDirective_append {ls ms : List (Located Lexeme)} {text : List Char} {loc : Location}
    (plain : (splitDirective ls).1 = none) :
    splitDirective (ls ++ ⟨⟨.eol, text⟩, loc⟩ :: ms) = (none, ls ++ ⟨⟨.eol, text⟩, loc⟩ :: ms) := by
  unfold splitDirective at plain
  split at plain
  · cases plain
  · rename_i other
    unfold splitDirective
    split
    · rename_i l l' l'' rest whole
      rcases ls with _ | ⟨a, _ | ⟨b, _ | ⟨d, ls⟩⟩⟩
      · simp at whole
      · simp at whole
      · simp at whole
      · simp only [List.cons_append, List.cons.injEq] at whole
        obtain ⟨rfl, rfl, rfl, -⟩ := whole
        exact absurd rfl (other _ _ _ _ _ _ _)
    · rfl

theorem splitDirective_of_none {ls : List (Located Lexeme)}
    (plain : (splitDirective ls).1 = none) : splitDirective ls = (none, ls) := by
  unfold splitDirective at plain ⊢
  split at plain
  · cases plain
  · rfl

/-- Lexemes in other places give the same tokens there. -/
theorem exists_sameTokens {d : Dictionary} {placed placed' : List (Located Lexeme)}
    {tokens : List Token} (same : placed.map Located.item = placed'.map Located.item)
    (formed : placed.map (Token.ofLexeme d) = tokens.map .ok) :
    ∃ tokens', placed'.map (Token.ofLexeme d) = tokens'.map .ok ∧ SameTokens tokens tokens' := by
  induction placed generalizing placed' tokens with
  | nil =>
    have none : placed' = [] := by simpa using same.symm
    have none' : tokens = [] := by simpa using formed.symm
    rw [none, none']
    exact ⟨[], rfl, .nil⟩
  | cons x placed ih =>
    cases placed' with
    | nil => cases same
    | cons x' placed' =>
      cases tokens with
      | nil => cases formed
      | cons token tokens =>
        obtain ⟨sameItem, same⟩ := List.cons.inj same
        obtain ⟨first, formed⟩ := List.cons.inj formed
        obtain ⟨tokens', formed', sameTokens⟩ := ih same formed
        obtain ⟨kind, text, -⟩ := Token.eq_of_ofLexeme first
        rw [sameItem] at kind text
        have first' : Token.ofLexeme d x' = .ok ⟨token.kind, token.text, x'.loc⟩ := by
          rw [Token.ofLexeme, kind, text]
        refine ⟨⟨token.kind, token.text, x'.loc⟩ :: tokens', ?_, ?_⟩
        · rw [List.map_cons, List.map_cons, first', formed']
        · exact .cons rfl (fun _ _ => rfl) (fun _ _ _ => rfl) sameTokens

theorem dictionary_of_none (plain : (ofSource languages source).directive = none) :
    (ofSource languages source).dictionary = languages.standard := by
  show choose languages (splitDirective (significant source.toList)).1 = _
  rw [splitDirective_of_none plain]
  rfl

/-- The tokens of a script without a directive are those of all its significant lexemes. -/
theorem map_significant (plain : (ofSource languages source).directive = none)
    (read : (ofSource languages source).tokens = .ok tokens) :
    (significant source.toList).map (Token.ofLexeme languages.standard) = tokens.map .ok := by
  have listed := map_lexemes read
  rw [dictionary_of_none plain, lexemes, splitDirective_of_none plain] at listed
  exact listed

/-- The tokens of two scripts joined by a line end. Those of the first one are where they were, and
the line end stands where the first one ended. -/
theorem ClosesLine.exists_tokens_join {first second : String} {tokens tokens' : List Token}
    (closes : ClosesLine languages first)
    (plain : (ofSource languages first).directive = none)
    (plain' : (ofSource languages second).directive = none)
    (read : (ofSource languages first).tokens = .ok tokens)
    (read' : (ofSource languages second).tokens = .ok tokens') :
    (ofSource languages (join first second)).directive = none ∧
    ∃ lineEnd moved, (ofSource languages (join first second)).tokens =
        .ok (tokens ++ lineEnd :: moved) ∧
      lineEnd.kind = .eol ∧ SameTokens tokens' moved ∧
      lineEnd.loc.span.start = (ofSource languages first).eof.loc.span.start ∧
      lineEnd.loc.pos = (ofSource languages first).eof.loc.pos := by
  have lexemes := closes.significant_join second
  have directive : splitDirective (significant (join first second).toList) =
      (none, significant (join first second).toList) := by
    rw [lexemes]
    exact splitDirective_append plain
  have sameItems : (significant second.toList).map Located.item =
      ((Lexeme.place (({} : Cursor).pass (first.toList ++ ['\n']))
        (Lexeme.all second.toList)).filter fun l => l.item.isSignificant).map Located.item := by
    rw [significant, Lexeme.map_item_filter, Lexeme.map_item_filter,
      Lexeme.map_item_place, Lexeme.map_item_place]
  obtain ⟨moved, formed, sameTokens⟩ :=
    exists_sameTokens sameItems (map_significant plain' read')
  refine ⟨congrArg Prod.fst directive,
    ⟨.eol, "\n", (({} : Cursor).pass first.toList).locate ['\n']⟩, moved, ?_, rfl, sameTokens,
    rfl, rfl⟩
  have items : (ofSource languages (join first second)).items =
      (tokens ++ ⟨.eol, "\n", (({} : Cursor).pass first.toList).locate ['\n']⟩ :: moved).map
        .ok := by
    show (splitDirective (significant (join first second).toList)).2.map (Token.ofLexeme
      (choose languages (splitDirective (significant (join first second).toList)).1)) = _
    rw [directive]
    show (significant (join first second).toList).map (Token.ofLexeme languages.standard) = _
    rw [lexemes, List.map_append, List.map_cons, map_significant plain read, formed,
      List.map_append, List.map_cons]
    rfl
  rw [Reading.tokens, items, tokens_of_items]

end Reading

end Polyglot
