import Polyglot.Proofs.Lexing.Literals
import Polyglot.Proofs.Lexing.Places

/-!
# Cutting a text

Lexemes cover a text without gaps: each is what stands at the head of the text that those before it
leave, and it has at least one character. What is not significant is a run of blanks or a comment.
The end of a line continues no lexeme, so a lexeme is cut off again from its own text alone, and the
lexemes of a line stay the same if something else follows the line.
-/

namespace Polyglot

namespace Lexeme

/-! ## Comments -/

/-- The first text is a comment where the second one follows it: from `#` to the end of the line,
or from `#*` to the first `*#` after it or to the end. -/
inductive IsComment : List Char → List Char → Prop
  | line {body rest : List Char} (plain : body.head? ≠ some '*')
      (inLine : ∀ c ∈ body, isLineEnd c = false) (stop : AtLineEnd rest) :
      IsComment ('#' :: body) rest
  | block {body rest : List Char} (first : ¬ ['*', '#'] <:+: body) :
      IsComment ('#' :: '*' :: (body ++ ['*', '#'])) rest
  | unclosed {body : List Char} (unclosed : ¬ ['*', '#'] <:+: body) :
      IsComment ('#' :: '*' :: body) []

/-- The first text is blank where the second one follows it. -/
def IsBlank (text rest : List Char) : Prop :=
  (∀ c ∈ text, isSpace c = true) ∨ IsComment text rest

theorem blockComment_cons {c : Char} {cs : List Char} (open' : ¬ ['*', '#'] <+: c :: cs) :
    blockComment (c :: cs) = (c :: (blockComment cs).1, (blockComment cs).2) := by
  rw [blockComment.eq_def]
  split
  · rename_i same
    cases same
  · rename_i rest same
    cases same
    exact absurd ⟨rest, rfl⟩ open'
  · rename_i same
    cases same
    rfl

/-- A block comment ends at the first closing mark. -/
theorem blockComment_closed {body : List Char} (first : ¬ ['*', '#'] <:+: body)
    (rest : List Char) :
    blockComment (body ++ '*' :: '#' :: rest) = (body ++ ['*', '#'], rest) := by
  induction body with
  | nil => rfl
  | cons c body ih =>
    have later : ¬ ['*', '#'] <:+: body := fun found => first (List.infix_cons found)
    have here : ¬ ['*', '#'] <+: c :: (body ++ '*' :: '#' :: rest) := by
      rintro ⟨tail, same⟩
      cases body with
      | nil => cases same
      | cons d body =>
        cases same
        exact first ⟨[], body, rfl⟩
    rw [List.cons_append, blockComment_cons here, ih later]
    rfl

theorem blockComment_unclosed {body : List Char} (unclosed : ¬ ['*', '#'] <:+: body) :
    blockComment body = (body, []) := by
  induction body with
  | nil => rfl
  | cons c body ih =>
    have later : ¬ ['*', '#'] <:+: body := fun found => unclosed (List.infix_cons found)
    have here : ¬ ['*', '#'] <+: c :: body := fun found => unclosed found.isInfix
    rw [blockComment_cons here, ih later]

/-- Every text has a first closing mark or none. -/
theorem exists_blockComment (text : List Char) :
    (∃ body rest, text = body ++ '*' :: '#' :: rest ∧ ¬ ['*', '#'] <:+: body) ∨
      ¬ ['*', '#'] <:+: text := by
  induction text with
  | nil => simp
  | cons c text ih =>
    by_cases here : ['*', '#'] <+: c :: text
    · obtain ⟨rest, same⟩ := here
      exact .inl ⟨[], rest, same.symm, by simp⟩
    · rcases ih with ⟨body, rest, rfl, first⟩ | unclosed
      · refine .inl ⟨c :: body, rest, rfl, ?_⟩
        intro found
        rcases List.infix_cons_iff.1 found with start | later
        · exact here (start.trans ⟨'*' :: '#' :: rest, rfl⟩)
        · exact first later
      · refine .inr ?_
        intro found
        rcases List.infix_cons_iff.1 found with start | later
        · exact here start
        · exact unclosed later

/-- What is taken for a comment is one. -/
theorem isComment_comment (cs : List Char) : IsComment ('#' :: (comment cs).1) (comment cs).2 := by
  unfold comment
  split
  · rename_i cs
    rcases exists_blockComment cs with ⟨body, rest, rfl, first⟩ | unclosed
    · rw [blockComment_closed first]
      exact .block first
    · rw [blockComment_unclosed unclosed]
      exact .unclosed unclosed
  · rename_i plain
    refine .line ?_ ?_ ?_
    · intro star
      cases cs with
      | nil => cases star
      | cons c cs =>
        have same : c = '*' := by
          by_cases kept : (!isLineEnd c) = true
          · simpa [List.takeWhile_cons, kept] using star
          · simp [kept] at star
        exact plain cs (by rw [same])
    · intro c member
      simpa using mem_takeWhile (p := (!isLineEnd ·)) c member
    · intro c first
      simpa using head?_dropWhile (p := (!isLineEnd ·)) c first

theorem comment_covers (cs : List Char) : (comment cs).1 ++ (comment cs).2 = cs := by
  unfold comment
  split
  · rename_i cs
    rcases exists_blockComment cs with ⟨body, rest, rfl, first⟩ | unclosed
    · rw [blockComment_closed first]
      simp
    · rw [blockComment_unclosed unclosed]
      simp
  · exact List.takeWhile_append_dropWhile

/-- A comment that ends before the text does is read again alike if the text goes on alike. -/
theorem comment_goesOn {text rest rest' : List Char} (read : comment (text ++ rest) = (text, rest))
    (more : rest ≠ []) (ahead : GoesOnLike rest rest') : comment (text ++ rest') = (text, rest') := by
  have shape := isComment_comment (text ++ rest)
  rw [read] at shape
  generalize whole : '#' :: text = whole at shape
  cases shape with
  | line plain inLine stop =>
    cases whole
    -- The end of the line stays where it was, so the run of other characters does.
    have ends : AtLineEnd rest' := by
      intro c first
      have stays := ahead.stop (p := (!isLineEnd ·)) (fun c ends => by simpa using ends)
        (fun c first => by simpa using stop c first) c first
      simpa using stays
    have noStar : ∀ cs, text ++ rest' ≠ '*' :: cs := by
      intro cs same
      cases text with
      | nil =>
        rw [List.nil_append] at same
        subst same
        have star : isLineEnd '*' = true := ends '*' rfl
        cases star
      | cons c text =>
        cases same
        exact plain rfl
    have run : (text ++ rest').takeWhile (!isLineEnd ·) = text ∧
        (text ++ rest').dropWhile (!isLineEnd ·) = rest' := by
      apply takeWhile_run
      · intro c member
        simpa using inLine c member
      · intro c first
        simpa using ends c first
    unfold comment
    split
    · rename_i cs same
      exact absurd same (noStar cs)
    · rw [run.1, run.2]
  | block first =>
    cases whole
    rename_i body
    have again := blockComment_closed first rest'
    simp only [List.cons_append, List.append_assoc, List.nil_append, comment, again]
  | unclosed => exact absurd rfl more

/-! ## The lexeme at the head of a text -/

/-- What the first character of a lexeme decides about it. -/
theorem next_cases (c : Char) :
    (isSpace c = true ∧
      ∀ cs, next c cs = (⟨.blank, c :: cs.takeWhile isSpace⟩, cs.dropWhile isSpace)) ∨
    (c = '#' ∧ ∀ cs, next c cs = (⟨.blank, c :: (comment cs).1⟩, (comment cs).2)) ∨
    (isLineEnd c = true ∧ ∀ cs, next c cs = (⟨.eol, [c]⟩, cs)) ∨
    (∀ cs, next c cs = (⟨.word, c :: cs.takeWhile isNamePart⟩, cs.dropWhile isNamePart)) ∨
    (c.isDigit = true ∧ ∀ cs, next c cs = ofScan .number (Literal.number (c :: cs))) ∨
    (∀ cs, next c cs = ofScan .text (Literal.text c cs)) ∨
    (∀ cs, next c cs = symbolOrStray c cs) := by
  unfold next
  by_cases space : isSpace c = true
  · exact .inl ⟨space, fun cs => if_pos space⟩
  by_cases hash : c = '#'
  · exact .inr (.inl ⟨hash, fun cs => by rw [if_neg space, if_pos hash]⟩)
  by_cases lineEnd : isLineEnd c = true
  · exact .inr (.inr (.inl ⟨lineEnd, fun cs => by rw [if_neg space, if_neg hash, if_pos lineEnd]⟩))
  refine .inr (.inr (.inr ?_))
  simp only [if_neg space, if_neg hash, if_neg lineEnd]
  by_cases name : isNameStart c = true
  · exact .inl fun cs => if_pos name
  by_cases digit : c.isDigit = true
  · exact .inr (.inl ⟨digit, fun cs => by rw [if_neg name, if_pos digit]⟩)
  by_cases quote : c = '\"' ∨ c = '\x27'
  · exact .inr (.inr (.inl fun cs => by rw [if_neg name, if_neg digit, if_pos quote]))
  · exact .inr (.inr (.inr fun cs => by rw [if_neg name, if_neg digit, if_neg quote]))

theorem ofScan_text {α : Type} (kind : α → Kind) (s : Scan α) :
    (ofScan kind s).1.text = s.covered ∧ (ofScan kind s).2 = s.rest := by
  unfold ofScan
  split <;> exact ⟨rfl, rfl⟩

/-- A lexeme that is not faulty comes from a scan that succeeded. -/
theorem eq_of_ofScan {α : Type} {kind : α → Kind} {s : Scan α} {l : Lexeme} {rest : List Char}
    (read : ofScan kind s = (l, rest)) (sound : ∀ fault, l.kind ≠ .faulty fault) :
    ∃ a, s = ⟨.ok a, l.text, rest⟩ ∧ l.kind = kind a := by
  obtain ⟨result, covered, left⟩ := s
  cases result with
  | error fault =>
    cases read
    exact absurd rfl (sound fault)
  | ok a =>
    cases read
    exact ⟨a, rfl, rfl⟩

theorem ofTwo?_of_isLineEnd (c : Char) {d : Char} (ends : isLineEnd d = true) :
    Symbol.ofTwo? c d = none := by
  rcases isLineEnd_iff.1 ends with rfl | rfl | rfl | rfl <;>
  · unfold Symbol.ofTwo?
    split <;> simp_all

theorem symbolOrStray_two {c d : Char} {s : Symbol} (two : Symbol.ofTwo? c d = some s)
    (cs : List Char) : symbolOrStray c (d :: cs) = (⟨.symbol s, [c, d]⟩, cs) := by
  simp [symbolOrStray, two]

theorem symbolOrStray_one {c : Char} {cs : List Char}
    (one : cs.head?.bind (Symbol.ofTwo? c) = none) :
    symbolOrStray c cs = (⟨((Symbol.ofOne? c).map Kind.symbol).getD .stray, [c]⟩, cs) := by
  rw [symbolOrStray, one]
  cases Symbol.ofOne? c <;> rfl

theorem symbolOrStray_cases (c : Char) (cs : List Char) :
    (∃ d ds s, cs = d :: ds ∧ Symbol.ofTwo? c d = some s) ∨
      cs.head?.bind (Symbol.ofTwo? c) = none := by
  cases cs with
  | nil => exact .inr rfl
  | cons d ds =>
    cases two : Symbol.ofTwo? c d with
    | some s => exact .inl ⟨d, ds, s, rfl, two⟩
    | none => exact .inr two

/-- The symbol at the head of a text is read again alike if the text goes on alike. -/
theorem symbolOrStray_goesOn {c : Char} {ds rest rest' : List Char} {l : Lexeme}
    (read : symbolOrStray c (ds ++ rest) = (l, rest)) (text : l.text = c :: ds)
    (ahead : GoesOnLike rest rest') : symbolOrStray c (ds ++ rest') = (l, rest') := by
  rcases symbolOrStray_cases c (ds ++ rest) with ⟨d, more, s, whole, two⟩ | one
  · rw [whole, symbolOrStray_two two] at read
    injection read with same left
    subst same left
    cases text
    exact symbolOrStray_two two rest'
  · rw [symbolOrStray_one one] at read
    injection read with same left
    subst same
    cases text
    rw [List.nil_append] at one ⊢
    have one' : rest'.head?.bind (Symbol.ofTwo? c) = none := by
      cases rest' with
      | nil => rfl
      | cons d more =>
        rcases ahead with atEnd | ⟨e, cs, cs', rfl, same, -⟩
        · exact ofTwo?_of_isLineEnd c (atEnd d rfl)
        · cases same
          exact one
    exact symbolOrStray_one one'

/-- A lexeme covers what it takes from the text, and that is at least one character. -/
theorem next_covers (c : Char) (cs : List Char) :
    ∃ ds, (next c cs).1.text = c :: ds ∧ ds ++ (next c cs).2 = cs := by
  rcases next_cases c with ⟨-, read⟩ | ⟨-, read⟩ | ⟨-, read⟩ | read | ⟨digit, read⟩ | read | read
  · rw [read]
    exact ⟨_, rfl, List.takeWhile_append_dropWhile⟩
  · rw [read]
    exact ⟨_, rfl, comment_covers cs⟩
  · rw [read]
    exact ⟨[], rfl, rfl⟩
  · rw [read]
    exact ⟨_, rfl, List.takeWhile_append_dropWhile⟩
  · rw [read]
    obtain ⟨text, rest⟩ := ofScan_text .number (Literal.number (c :: cs))
    have whole := Literal.number_covers (c :: cs)
    rw [text, rest]
    obtain ⟨d, ds, first⟩ := List.exists_cons_of_ne_nil (Literal.number_nonempty digit cs)
    rw [first] at whole ⊢
    obtain ⟨same, tail⟩ := List.cons.inj whole
    exact ⟨ds, by rw [same], tail⟩
  · rw [read]
    obtain ⟨text, rest⟩ := ofScan_text .text (Literal.text c cs)
    rw [text, rest]
    exact ⟨_, rfl, (List.cons.inj (Literal.text_covers c cs)).2⟩
  · rw [read]
    rcases symbolOrStray_cases c cs with ⟨d, ds, s, rfl, two⟩ | one
    · rw [symbolOrStray_two two]
      exact ⟨[d], rfl, rfl⟩
    · rw [symbolOrStray_one one]
      exact ⟨[], rfl, rfl⟩

theorem isSignificant_eq_false {l : Lexeme} : l.isSignificant = false ↔ l.kind = .blank := by
  obtain ⟨kind, text⟩ := l
  cases kind <;> simp [isSignificant]

theorem spelling_of_ofTwo? {c d : Char} {s : Symbol} (two : Symbol.ofTwo? c d = some s) :
    s.spelling.toList = [c, d] := by
  unfold Symbol.ofTwo? at two
  split at two <;> cases two <;> rfl

theorem spelling_of_ofOne? {c : Char} {s : Symbol} (one : Symbol.ofOne? c = some s) :
    s.spelling.toList = [c] := by
  unfold Symbol.ofOne? at one
  split at one <;> cases one <;> rfl

theorem ofScan_kind {α : Type} {kind : α → Kind} {target : Kind} (other : ∀ a, kind a ≠ target)
    (sound : ∀ fault, Kind.faulty fault ≠ target) (s : Scan α) :
    (ofScan kind s).1.kind ≠ target := by
  unfold ofScan
  split
  · exact other _
  · exact sound _

/-- A symbol is spelled as it is written. -/
theorem text_of_symbol {c : Char} {cs : List Char} {s : Symbol}
    (symbol : (next c cs).1.kind = .symbol s) : (next c cs).1.text = s.spelling.toList := by
  rcases next_cases c with ⟨-, read⟩ | ⟨-, read⟩ | ⟨-, read⟩ | read | ⟨-, read⟩ | read | read
  · rw [read] at symbol
    cases symbol
  · rw [read] at symbol
    cases symbol
  · rw [read] at symbol
    cases symbol
  · rw [read] at symbol
    cases symbol
  · rw [read] at symbol
    exact absurd symbol (ofScan_kind (by simp) (by simp) _)
  · rw [read] at symbol
    exact absurd symbol (ofScan_kind (by simp) (by simp) _)
  · rw [read] at symbol ⊢
    rcases symbolOrStray_cases c cs with ⟨d, ds, t, rfl, two⟩ | one
    · rw [symbolOrStray_two two] at symbol ⊢
      cases symbol
      exact (spelling_of_ofTwo? two).symm
    · rw [symbolOrStray_one one] at symbol ⊢
      cases found : Symbol.ofOne? c with
      | none => simp [found] at symbol
      | some t =>
        rw [found] at symbol
        cases symbol
        exact (spelling_of_ofOne? found).symm

/-- What is not significant is blank. -/
theorem isBlank_next {c : Char} {cs : List Char} (idle : (next c cs).1.isSignificant = false) :
    IsBlank (next c cs).1.text (next c cs).2 := by
  rcases next_cases c with ⟨space, read⟩ | ⟨rfl, read⟩ | ⟨-, read⟩ | read | ⟨-, read⟩ | read | read
  · rw [read]
    refine .inl ?_
    intro d member
    rcases List.mem_cons.1 member with rfl | later
    · exact space
    · exact mem_takeWhile d later
  · rw [read]
    exact .inr (isComment_comment cs)
  · rw [read] at idle
    cases idle
  · rw [read] at idle
    cases idle
  · rw [read, isSignificant_eq_false] at idle
    exact absurd idle (ofScan_kind (by simp) (by simp) _)
  · rw [read, isSignificant_eq_false] at idle
    exact absurd idle (ofScan_kind (by simp) (by simp) _)
  · rw [read] at idle
    rcases symbolOrStray_cases c cs with ⟨d, ds, s, rfl, two⟩ | one
    · rw [symbolOrStray_two two] at idle
      cases idle
    · rw [symbolOrStray_one one] at idle
      cases found : Symbol.ofOne? c <;> simp [found, isSignificant] at idle

/-- A lexeme is cut off again if the text goes on alike after it. -/
theorem next_goesOn {c : Char} {ds rest rest' : List Char} {l : Lexeme}
    (read : next c (ds ++ rest) = (l, rest)) (text : l.text = c :: ds)
    (sound : ∀ fault, l.kind ≠ .faulty fault) (more : l.isSignificant = true ∨ rest ≠ [])
    (ahead : GoesOnLike rest rest') : next c (ds ++ rest') = (l, rest') := by
  -- A run of one class of characters ends at the end of a line at the latest.
  have run : ∀ {p : Char → Bool}, (∀ c, isLineEnd c = true → p c = false) →
      (ds ++ rest).takeWhile p = ds → (ds ++ rest).dropWhile p = rest →
      (ds ++ rest').takeWhile p = ds ∧ (ds ++ rest').dropWhile p = rest' := by
    intro p ends taken left
    refine takeWhile_run ?_ ?_
    · rw [← taken]
      exact mem_takeWhile
    · refine ahead.stop ends ?_
      rw [← left]
      exact head?_dropWhile
  rcases next_cases c with ⟨-, eq⟩ | ⟨-, eq⟩ | ⟨-, eq⟩ | eq | ⟨-, eq⟩ | eq | eq
  · rw [eq] at read
    injection read with whole left
    subst whole
    obtain ⟨taken, dropped⟩ := run (p := isSpace)
      (fun c ends => of_isLineEnd (P := fun c => isSpace c = false) rfl rfl rfl rfl ends)
      (List.cons.inj text).2 left
    rw [eq, taken, dropped, (List.cons.inj text).2]
  · rw [eq] at read
    injection read with whole left
    subst whole
    have covered : (comment (ds ++ rest)).1 = ds := (List.cons.inj text).2
    have again := comment_goesOn (Prod.ext covered left) (more.resolve_left nofun) ahead
    rw [eq, again, covered]
  · rw [eq] at read
    injection read with whole left
    subst whole
    cases text
    exact eq rest'
  · rw [eq] at read
    injection read with whole left
    subst whole
    obtain ⟨taken, dropped⟩ := run (p := isNamePart)
      (fun c ends => of_isLineEnd (P := fun c => isNamePart c = false) rfl rfl rfl rfl ends)
      (List.cons.inj text).2 left
    rw [eq, taken, dropped, (List.cons.inj text).2]
  · rw [eq] at read
    obtain ⟨n, scan, kind⟩ := eq_of_ofScan read sound
    rw [text, ← List.cons_append] at scan
    rw [eq, ← List.cons_append, Literal.number_goesOn (by simp) scan ahead]
    obtain ⟨_, _⟩ := l
    cases kind
    cases text
    rfl
  · rw [eq] at read
    obtain ⟨s, scan, kind⟩ := eq_of_ofScan read sound
    rw [text] at scan
    rw [eq, Literal.text_again scan]
    obtain ⟨_, _⟩ := l
    cases kind
    cases text
    rfl
  · rw [eq] at read ⊢
    exact symbolOrStray_goesOn read text ahead

/-! ## All lexemes of a text -/

theorem length_next (c : Char) (cs : List Char) : (next c cs).2.length ≤ cs.length := by
  obtain ⟨ds, -, whole⟩ := next_covers c cs
  have size := congrArg List.length whole
  rw [List.length_append] at size
  omega

/-- The bound on the number of lexemes does not matter if it is as large as the text is long. -/
theorem cut_enough {text : List Char} {n m : Nat} (enough : text.length ≤ n)
    (enough' : text.length ≤ m) : cut n text = cut m text := by
  induction n generalizing m text with
  | zero =>
    obtain rfl : text = [] := List.length_eq_zero_iff.1 (by omega)
    cases m <;> rfl
  | succ n ih =>
    cases text with
    | nil => cases m <;> rfl
    | cons c cs =>
      rw [List.length_cons] at enough enough'
      obtain ⟨m, rfl⟩ : ∃ k, m = k + 1 := ⟨m - 1, by omega⟩
      have shorter := length_next c cs
      have later : cut n (next c cs).2 = cut m (next c cs).2 := ih (by omega) (by omega)
      rw [cut, cut, later]

@[simp] theorem all_nil : all [] = [] := rfl

theorem all_cons (c : Char) (cs : List Char) : all (c :: cs) = (next c cs).1 :: all (next c cs).2 := by
  have shorter := length_next c cs
  rw [all, List.length_cons, cut, all, cut_enough shorter (Nat.le_refl _)]

/-- Induction along the lexemes of a text. -/
theorem all_induction {P : List Char → Prop} (nil : P [])
    (cons : ∀ c cs, P (next c cs).2 → P (c :: cs)) (text : List Char) : P text := by
  induction size : text.length using Nat.strong_induction_on generalizing text with
  | _ n ih =>
    cases text with
    | nil => exact nil
    | cons c cs =>
      refine cons c cs (ih (next c cs).2.length ?_ _ rfl)
      have shorter := length_next c cs
      rw [List.length_cons] at size
      omega

/-- Together the lexemes of a text are the text. -/
theorem flatMap_all (text : List Char) : (all text).flatMap Lexeme.text = text := by
  induction text using all_induction with
  | nil => rfl
  | cons c cs ih =>
    obtain ⟨ds, first, whole⟩ := next_covers c cs
    rw [all_cons, List.flatMap_cons, ih, first, List.cons_append, whole]

theorem all_eq_nil {text : List Char} (none : all text = []) : text = [] := by
  cases text with
  | nil => rfl
  | cons c cs =>
    rw [all_cons] at none
    cases none

/-- What follows the last line end of a text does not change the lexemes before it. -/
theorem all_append {text : List Char} {ls : List Lexeme}
    (ends : all (text ++ ['\n']) = ls ++ [⟨.eol, ['\n']⟩])
    (sound : ∀ l ∈ ls, ∀ fault, l.kind ≠ .faulty fault) {rest : List Char} (stop : AtLineEnd rest) :
    all (text ++ rest) = ls ++ all rest := by
  induction size : text.length using Nat.strong_induction_on generalizing text ls with
  | _ n ih =>
    cases text with
    | nil =>
      have single : all ['\n'] = [⟨.eol, ['\n']⟩] := rfl
      have none : ls = [] := by
        rw [List.nil_append, single] at ends
        simpa using ends
      rw [none]
      rfl
    | cons c cs =>
      obtain ⟨ds, first, whole⟩ := next_covers c (cs ++ ['\n'])
      rw [List.cons_append, all_cons] at ends
      cases ls with
      | nil =>
        -- The one lexeme would be longer than a line end.
        injection ends with last none
        rw [all_eq_nil none, List.append_nil] at whole
        rw [last, whole] at first
        simp at first
      | cons l ls =>
        injection ends with here later
        have more : (next c (cs ++ ['\n'])).2 ≠ [] := by
          intro none
          rw [none] at later
          simp at later
        obtain ⟨tail, last, split⟩ : ∃ tail, (next c (cs ++ ['\n'])).2 = tail ++ ['\n'] ∧
            cs = ds ++ tail := by
          obtain ⟨tail, e, same⟩ := (List.eq_nil_or_concat' _).resolve_left more
          rw [same, ← List.append_assoc] at whole
          obtain ⟨split, same'⟩ := List.append_inj' whole rfl
          exact ⟨tail, by rw [same, same'], split.symm⟩
        have ahead : GoesOnLike (tail ++ ['\n']) (tail ++ rest) := by
          cases tail with
          | nil => exact .inl stop
          | cons d tail =>
            refine .inr ⟨d, tail ++ ['\n'], tail ++ rest, rfl, rfl, ?_⟩
            cases tail with
            | nil => exact .inl stop
            | cons e tail => exact .inr rfl
        have read : next c (ds ++ (tail ++ ['\n'])) = (l, tail ++ ['\n']) := by
          rw [← List.append_assoc, ← split, ← here, ← last]
        have again := next_goesOn read (by rw [← here, first]) (sound l (by simp))
          (.inr (by simp)) ahead
        have shorter : tail.length < n := by
          rw [← size, split]
          simp only [List.length_cons, List.length_append]
          omega
        rw [last] at later
        have rest' := ih tail.length shorter later (fun l member => sound l (by simp [member])) rfl
        rw [split, List.cons_append, all_cons, List.append_assoc, again, rest']
        rfl

/-- A significant lexeme that is not faulty is the only lexeme of its own text. -/
theorem all_text {c : Char} {ds rest : List Char} {l : Lexeme} (read : next c (ds ++ rest) = (l, rest))
    (text : l.text = c :: ds) (sound : ∀ fault, l.kind ≠ .faulty fault)
    (significant : l.isSignificant = true) : all l.text = [l] := by
  have again := next_goesOn read text sound (.inl significant) (.inl atLineEnd_nil)
  rw [List.append_nil] at again
  rw [text, all_cons, again, all_nil]

/-! ## The places of lexemes -/

/-- Every lexeme of a text is what stands at the head of the text at its place. -/
theorem exists_of_mem_place {k : Cursor} {text : List Char} {x : Located Lexeme}
    (member : x ∈ place k (all text)) :
    ∃ before c ds after, text = before ++ (c :: ds) ++ after ∧
      next c (ds ++ after) = (x.item, after) ∧ x.item.text = c :: ds ∧
      x.loc = (k.pass before).locate x.item.text := by
  induction text using all_induction generalizing k with
  | nil => cases member
  | cons c cs ih =>
    obtain ⟨ds, first, whole⟩ := next_covers c cs
    rw [all_cons, place] at member
    rcases List.mem_cons.1 member with rfl | later
    · refine ⟨[], c, ds, (next c cs).2, ?_, ?_, first, rfl⟩
      · rw [List.nil_append, List.cons_append, whole]
      · rw [whole]
    · obtain ⟨before, d, es, after, split, read, text, loc⟩ := ih later
      refine ⟨(next c cs).1.text ++ before, d, es, after, ?_, read, text, ?_⟩
      · rw [List.append_assoc, List.append_assoc, ← List.append_assoc before, ← split, first,
          List.cons_append, whole]
      · rw [loc, Cursor.pass_append]

theorem le_start_of_mem_place {k : Cursor} {ls : List Lexeme} {x : Located Lexeme}
    (member : x ∈ place k ls) : k.offset ≤ x.loc.span.start := by
  induction ls generalizing k with
  | nil => cases member
  | cons l ls ih =>
    rw [place] at member
    rcases List.mem_cons.1 member with rfl | later
    · simp
    · have after := ih later
      rw [Cursor.offset_pass] at after
      omega

/-- Lexemes are placed one after the other. -/
theorem pairwise_place (k : Cursor) (ls : List Lexeme) :
    (place k ls).Pairwise fun x y => x.loc.span.Before y.loc.span := by
  induction ls generalizing k with
  | nil => exact .nil
  | cons l ls ih =>
    refine .cons ?_ (ih _)
    intro y later
    exact le_start_of_mem_place later

/-- Lexemes are placed without gaps. -/
theorem exists_has_of_place {k : Cursor} {ls : List Lexeme} {offset : Nat} (from' : k.offset ≤ offset)
    (upTo : offset < k.offset + String.utf8Len (ls.flatMap Lexeme.text)) :
    ∃ x ∈ place k ls, x.loc.span.Has offset := by
  induction ls generalizing k with
  | nil =>
    simp at upTo
    omega
  | cons l ls ih =>
    rw [List.flatMap_cons, String.utf8Len_append] at upTo
    by_cases here : offset < k.offset + String.utf8Len l.text
    · refine ⟨⟨l, k.locate l.text⟩, List.mem_cons_self, from', ?_⟩
      simpa using here
    · have passed : (k.pass l.text).offset = k.offset + String.utf8Len l.text :=
        Cursor.offset_pass k l.text
      obtain ⟨x, member, has⟩ := ih (k := k.pass l.text) (by omega) (by omega)
      exact ⟨x, List.mem_cons_of_mem _ member, has⟩

end Lexeme

end Polyglot
