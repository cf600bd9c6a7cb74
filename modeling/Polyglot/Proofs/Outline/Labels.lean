import Polyglot.Proofs.Outline.Layout
import Polyglot.Proofs.Parsing.Spelling
import Polyglot.Proofs.Value.DecimalText

/-!
# Labels

The label of a node is a word for its kind and a note on its constants, names and operators. The
words are all different, and every note can be read in one way only: what a constant is shows in its
first characters, and names hold no blanks, commas or brackets.
-/

namespace Polyglot

open Lexeme (isNamePart isIdentifier_iff)

/-! ## Identifiers -/

theorem isNamePart_of_mem {s : String} (identifier : isIdentifier s = true) {c : Char}
    (member : c ∈ s.toList) : isNamePart c = true := by
  rw [← String.ofList_toList (s := s)] at identifier
  cases chars : s.toList with
  | nil => simp [chars] at member
  | cons first rest =>
    rw [chars] at identifier member
    obtain ⟨start, parts⟩ := isIdentifier_iff.1 identifier
    rcases List.mem_cons.1 member with rfl | later
    · exact Bool.or_eq_true_iff.2 (.inl start)
    · exact parts c later

/-- A character that is no part of a name does not occur in an identifier. -/
theorem not_mem_of_isIdentifier {s : String} (identifier : isIdentifier s = true) {c : Char}
    (other : isNamePart c = false) : c ∉ s.toList := by
  intro member
  rw [isNamePart_of_mem identifier member] at other
  cases other

/-- Nor does an identifier begin with it. -/
theorem head_ne_of_isIdentifier {s : String} (identifier : isIdentifier s = true) {c : Char}
    (other : isNamePart c = false) (rest : List Char) : (s.toList ++ rest).head? ≠ some c := by
  cases chars : s.toList with
  | nil => simp [isIdentifier, chars] at identifier
  | cons first others =>
    intro same
    cases same
    exact not_mem_of_isIdentifier identifier other (chars ▸ List.mem_cons_self)

/-! ## Constants -/

namespace Constant

/-- The kinds of constants. -/
inductive Kind
  | null
  | bool
  | int
  | float
  | text
deriving DecidableEq

/-- The kind of a constant. -/
def kind : Constant → Kind
  | null => .null
  | bool _ => .bool
  | int _ => .int
  | float _ => .float
  | text _ => .text

/-- The kind of the constant with a given text. Whole numbers have digits and a sign only. -/
def kindOf (cs : List Char) : Kind :=
  match cs.head? with
  | some 'n' => .null
  | some 't' | some 'f' => .bool
  | some '\"' => .text
  | _ => if ∀ c ∈ cs, c.isDigit = true ∨ c = '-' then .int else .float

/-- Texts that begin as numbers do are those of numbers. -/
theorem kindOf_number {cs : List Char}
    (start : ∃ c rest, cs = c :: rest ∧ (c.isDigit = true ∨ c ∈ ['-', 'N', 'i'])) :
    kindOf cs = if ∀ c ∈ cs, c.isDigit = true ∨ c = '-' then .int else .float := by
  obtain ⟨c, rest, rfl, start⟩ := start
  have others : c ≠ 'n' ∧ c ≠ 't' ∧ c ≠ 'f' ∧ c ≠ '\"' := by
    refine ⟨?_, ?_, ?_, ?_⟩ <;> rintro rfl <;> rcases start with digit | sign <;>
      first | cases digit | exact absurd sign (by decide)
  simp [kindOf, others]

theorem kindOf_display (c : Constant) : kindOf c.display.toList = c.kind := by
  cases c with
  | null => rfl
  | bool b => cases b <;> rfl
  | int n =>
    have digits : ∀ d ∈ (toString n.toInt).toList, d.isDigit = true ∨ d = '-' :=
      fun d member => Text.mem_toString_int member
    have start : ∃ d rest, (toString n.toInt).toList = d :: rest ∧
        (d.isDigit = true ∨ d ∈ ['-', 'N', 'i']) := by
      have some : (toString n.toInt).toList ≠ [] := by
        rw [Text.toList_toString_int]
        exact List.append_ne_nil_of_right_ne_nil _ (Text.toString_ne_nil _)
      obtain ⟨d, rest, chars⟩ := List.exists_cons_of_ne_nil some
      refine ⟨d, rest, chars, ?_⟩
      rcases digits d (chars ▸ List.mem_cons_self) with digit | minus
      · exact .inl digit
      · exact .inr (by simp [minus])
    rw [display, kindOf_number start, if_pos digits]
    rfl
  | float x =>
    have written := Decimal.textOf x
    have fraction : ¬ ∀ d ∈ (Decimal.text x).toList, d.isDigit = true ∨ d = '-' := by
      intro all
      obtain ⟨d, member, noDigit, noMinus⟩ := written.mark
      rcases all d member with digit | minus
      · rw [digit] at noDigit
        cases noDigit
      · exact noMinus minus
    rw [display, kindOf_number written.head, if_neg fraction]
    rfl
  | text s =>
    rw [display, Text.toList_quoted]
    rfl

/-- The text of a constant tells which it is. -/
theorem display_injective {a b : Constant} (same : a.display = b.display) : a = b := by
  have kinds : a.kind = b.kind := by
    rw [← kindOf_display a, same, kindOf_display b]
  cases a with
  | null =>
    cases b with
    | null => rfl
    | _ => cases kinds
  | bool x =>
    cases b with
    | bool y => cases x <;> cases y <;> first | rfl | exact absurd same (by decide)
    | _ => cases kinds
  | int m =>
    cases b with
    | int n => exact congrArg int (Int64.toInt_inj.1 (Int.repr_inj.1 same))
    | _ => cases kinds
  | float x =>
    cases b with
    | float y => exact congrArg float (Decimal.text_injective same)
    | _ => cases kinds
  | text s =>
    cases b with
    | text t => exact congrArg text (Text.quoted_injective same)
    | _ => cases kinds

theorem display_on_line (c : Constant) : '\n' ∉ c.display.toList := by
  cases c with
  | null => decide
  | bool b => cases b <;> decide
  | int n =>
    intro member
    rcases Text.mem_toString_int member with digit | minus
    · cases digit
    · cases minus
  | float x => exact (Decimal.textOf x).on_line
  | text s => exact Text.quoted_on_line s

end Constant

/-! ## Operators -/

theorem BinaryOp.spelling_injective {a b : BinaryOp} (same : a.spelling = b.spelling) : a = b := by
  cases a <;> cases b <;> first | rfl | exact absurd same (by decide)

theorem UnaryOp.spelling_injective {a b : UnaryOp} (same : a.spelling = b.spelling) : a = b := by
  cases a <;> cases b <;> first | rfl | exact absurd same (by decide)

theorem LogicalOp.spelling_injective {a b : LogicalOp} (same : a.spelling = b.spelling) :
    a = b := by
  cases a <;> cases b <;> first | rfl | exact absurd same (by decide)

theorem Direction.spelling_injective {a b : Direction} (same : a.spelling = b.spelling) :
    a = b := by
  cases a <;> cases b <;> first | rfl | exact absurd same (by decide)

/-! ## Heads -/

/-- What a label is made of. -/
inductive NodeHead
  | constant (value : Constant)
  | name (name : String)
  | block
  | statement
  | assign
  | call (callee : String)
  | binary (op : BinaryOp)
  | unary (op : UnaryOp)
  | logical (op : LogicalOp)
  | conditional
  | index
  | object
  | array
  | whileLoop (retain : Bool)
  | countLoop (counter : String) (direction : Direction) (retain : Bool)
  | eachLoop (element : String) (retain : Bool)
  | eachPairLoop (first second : String) (retain : Bool)
  | breakLoop
  | continueLoop
  | returnValue

namespace NodeHead

/-- The word for the kind of a node. -/
def word : NodeHead → String
  | constant _ => "Literal"
  | name _ => "Identifier"
  | block => "Block"
  | statement => "ExpressionStatement"
  | assign => "Assignment"
  | call _ => "Call"
  | binary _ => "BinaryOp"
  | unary _ => "UnaryOp"
  | logical _ => "LogicalOp"
  | conditional => "If"
  | index => "IndexAccess"
  | object => "ObjectLiteral"
  | array => "ArrayLiteral"
  | whileLoop _ => "WhileLoop"
  | countLoop _ _ _ => "ForLoop"
  | eachLoop _ _ | eachPairLoop _ _ _ => "ForOfLoop"
  | breakLoop => "Break"
  | continueLoop => "Continue"
  | returnValue => "Return"

/-- The note on what else is known of the node. -/
def note : NodeHead → String
  | constant value => " " ++ value.display
  | name s | call s => " " ++ s
  | binary op => " " ++ op.spelling
  | unary op => " " ++ op.spelling
  | logical op => " " ++ op.spelling
  | whileLoop retain => Node.retainLabel retain
  | countLoop counter direction retain =>
    " " ++ counter ++ " " ++ direction.spelling ++ Node.retainLabel retain
  | eachLoop element retain => " " ++ element ++ Node.retainLabel retain
  | eachPairLoop first second retain =>
    " (" ++ first ++ ", " ++ second ++ ")" ++ Node.retainLabel retain
  | block | statement | assign | conditional | index | object | array | breakLoop | continueLoop
  | returnValue => ""

/-- The label of a node. -/
def label (h : NodeHead) : String :=
  h.word ++ h.note

/-- The names in a label. -/
def names : NodeHead → List String
  | name s | call s => [s]
  | countLoop counter _ _ => [counter]
  | eachLoop element _ => [element]
  | eachPairLoop first second _ => [first, second]
  | _ => []

/-- All names in a label are identifiers. -/
def Worded (h : NodeHead) : Prop :=
  ∀ s ∈ h.names, isIdentifier s = true

theorem Worded.nameless {h : NodeHead} (none : h.names = []) : h.Worded := by
  simp [Worded, none]

theorem Worded.named {h : NodeHead} {s : String} (one : h.names = [s])
    (identifier : isIdentifier s = true) : h.Worded := by
  simpa [Worded, one] using identifier

/-! ## Reading labels -/

theorem retainLabel_injective {a b : Bool} (same : Node.retainLabel a = Node.retainLabel b) :
    a = b := by
  cases a <;> cases b <;> first | rfl | exact absurd same (by decide)

theorem head_retainLabel (retain : Bool) :
    ∀ c ∈ (Node.retainLabel retain).toList.head?, c = ' ' := by
  cases retain <;> simp [Node.retainLabel]

/-- What is written without a blank before the note on the values is told from it. -/
theorem eq_of_retainLabel {s t : String} {a b : Bool} (apart : ' ' ∉ s.toList)
    (apart' : ' ' ∉ t.toList) (same : s ++ Node.retainLabel a = t ++ Node.retainLabel b) :
    s = t ∧ a = b := by
  have chars := congrArg String.toList same
  rw [String.toList_append, String.toList_append] at chars
  obtain ⟨before, after⟩ := Text.eq_of_append_of_head apart apart' (head_retainLabel a)
    (head_retainLabel b) chars
  exact ⟨String.toList_injective before, retainLabel_injective (String.toList_injective after)⟩

theorem blank_not_mem_spelling (d : Direction) : ' ' ∉ d.spelling.toList := by
  cases d <;> decide

/-- A word has letters, and nothing else. -/
theorem word_letters (h : NodeHead) :
    h.word.toList ≠ [] ∧ h.word.toList.all Char.isAlpha = true := by
  cases h <;> dsimp only [word] <;> decide

theorem not_mem_word (h : NodeHead) {c : Char} (other : c.isAlpha = false) :
    c ∉ h.word.toList := by
  intro member
  rw [List.all_eq_true.1 (word_letters h).2 c member] at other
  cases other

/-- A note begins with a blank if there is one. -/
theorem head_note (h : NodeHead) : ∀ c ∈ h.note.toList.head?, c = ' ' := by
  cases h with
  | whileLoop retain => exact head_retainLabel retain
  | _ => simp [note]

/-- The notes of a loop that counts. -/
theorem countLoop_told {c c' : String} {d d' : Direction} {a b : Bool}
    (identifier : isIdentifier c = true) (identifier' : isIdentifier c' = true)
    (same : (countLoop c d a).note = (countLoop c' d' b).note) : c = c' ∧ d = d' ∧ a = b := by
  simp only [note, String.append_assoc, String.append_right_inj] at same
  have chars := congrArg String.toList same
  obtain ⟨counters, rest⟩ := Text.eq_of_append_cons
    (s := (d.spelling ++ Node.retainLabel a).toList)
    (t := (d'.spelling ++ Node.retainLabel b).toList)
    (not_mem_of_isIdentifier (c := ' ') identifier rfl)
    (not_mem_of_isIdentifier identifier' rfl)
    (by simpa using chars)
  obtain ⟨directions, rfl⟩ := eq_of_retainLabel (blank_not_mem_spelling d)
    (blank_not_mem_spelling d') (String.toList_injective rest)
  exact ⟨String.toList_injective counters, Direction.spelling_injective directions, rfl⟩

/-- The notes of a loop over elements. -/
theorem eachLoop_told {s t : String} {a b : Bool} (identifier : isIdentifier s = true)
    (identifier' : isIdentifier t = true)
    (same : (eachLoop s a).note = (eachLoop t b).note) : s = t ∧ a = b := by
  simp only [note, String.append_assoc, String.append_right_inj] at same
  exact eq_of_retainLabel (not_mem_of_isIdentifier identifier rfl)
    (not_mem_of_isIdentifier identifier' rfl) same

/-- The notes of a loop over pairs. -/
theorem eachPairLoop_told {s s' t t' : String} {a b : Bool}
    (first : isIdentifier s = true ∧ isIdentifier t = true)
    (second : isIdentifier s' = true ∧ isIdentifier t' = true)
    (same : (eachPairLoop s t a).note = (eachPairLoop s' t' b).note) :
    s = s' ∧ t = t' ∧ a = b := by
  simp only [note, String.append_assoc, String.append_right_inj] at same
  have chars := congrArg String.toList same
  obtain ⟨firsts, rest⟩ := Text.eq_of_append_cons
    (s := ' ' :: (t ++ (")" ++ Node.retainLabel a)).toList)
    (t := ' ' :: (t' ++ (")" ++ Node.retainLabel b)).toList)
    (not_mem_of_isIdentifier (c := ',') first.1 rfl) (not_mem_of_isIdentifier second.1 rfl)
    (by simpa using chars)
  obtain ⟨seconds, retains⟩ := Text.eq_of_append_cons
    (s := (Node.retainLabel a).toList) (t := (Node.retainLabel b).toList)
    (not_mem_of_isIdentifier (c := ')') first.2 rfl) (not_mem_of_isIdentifier second.2 rfl)
    (by simpa using rest)
  exact ⟨String.toList_injective firsts, String.toList_injective seconds,
    retainLabel_injective (String.toList_injective retains)⟩

/-- A loop over pairs shows the bracket before its names. -/
theorem eachLoop_note_ne {s t t' : String} {a b : Bool} (identifier : isIdentifier s = true) :
    (eachLoop s a).note ≠ (eachPairLoop t t' b).note := by
  intro same
  have chars := congrArg String.toList same
  simp only [note, String.toList_append] at chars
  have rest := (List.cons.inj chars).2
  exact head_ne_of_isIdentifier (c := '(') identifier rfl _ (congrArg List.head? rest)

/-- A label with identifiers for names tells all that it is made of. -/
theorem label_injective {h k : NodeHead} (worded : h.Worded) (worded' : k.Worded)
    (same : h.label = k.label) : h = k := by
  have chars := congrArg String.toList same
  simp only [label, String.toList_append] at chars
  obtain ⟨words, notes⟩ := Text.eq_of_append_of_head (not_mem_word h rfl) (not_mem_word k rfl)
    (head_note h) (head_note k) chars
  replace words := String.toList_injective words
  replace notes := String.toList_injective notes
  -- Different words leave only heads of one kind, and the two kinds of loops over elements.
  cases h <;> cases k <;> first
    | exact absurd words (of_decide_eq_false rfl)
    | rfl
    | skip
  case constant.constant a b =>
    rw [Constant.display_injective ((String.append_right_inj _).1 notes)]
  case name.name s t => rw [(String.append_right_inj _).1 notes]
  case call.call s t => rw [(String.append_right_inj _).1 notes]
  case binary.binary a b =>
    rw [BinaryOp.spelling_injective ((String.append_right_inj _).1 notes)]
  case unary.unary a b =>
    rw [UnaryOp.spelling_injective ((String.append_right_inj _).1 notes)]
  case logical.logical a b =>
    rw [LogicalOp.spelling_injective ((String.append_right_inj _).1 notes)]
  case whileLoop.whileLoop a b => rw [retainLabel_injective notes]
  case countLoop.countLoop =>
    obtain ⟨rfl, rfl, rfl⟩ := countLoop_told (worded _ (.head _)) (worded' _ (.head _)) notes
    rfl
  case eachLoop.eachLoop =>
    obtain ⟨rfl, rfl⟩ := eachLoop_told (worded _ (.head _)) (worded' _ (.head _)) notes
    rfl
  case eachLoop.eachPairLoop => exact absurd notes (eachLoop_note_ne (worded _ (.head _)))
  case eachPairLoop.eachLoop => exact absurd notes.symm (eachLoop_note_ne (worded' _ (.head _)))
  case eachPairLoop.eachPairLoop =>
    obtain ⟨rfl, rfl, rfl⟩ := eachPairLoop_told
      ⟨worded _ (.head _), worded _ (.tail _ (.head _))⟩
      ⟨worded' _ (.head _), worded' _ (.tail _ (.head _))⟩ notes
    rfl

theorem retainLabel_on_line (retain : Bool) : '\n' ∉ (Node.retainLabel retain).toList := by
  cases retain <;> decide

theorem note_on_line {h : NodeHead} (worded : h.Worded) : '\n' ∉ h.note.toList := by
  have named : ∀ s ∈ h.names, '\n' ∉ s.toList :=
    fun s member => not_mem_of_isIdentifier (worded s member) rfl
  cases h with
  | constant value => simp [note, value.display_on_line]
  | name s | call s => simpa [note, names] using named
  | binary op => cases op <;> dsimp only [note] <;> decide
  | unary op => cases op <;> dsimp only [note] <;> decide
  | logical op => cases op <;> dsimp only [note] <;> decide
  | whileLoop retain => exact retainLabel_on_line retain
  | countLoop counter direction retain =>
    have spelling : '\n' ∉ direction.spelling.toList := by cases direction <;> decide
    simpa [note, names, spelling, retainLabel_on_line] using named
  | eachLoop element retain => simpa [note, names, retainLabel_on_line] using named
  | eachPairLoop first second retain => simpa [note, names, retainLabel_on_line] using named
  | _ => simp [note]

theorem isLabel {h : NodeHead} (worded : h.Worded) : IsLabel h.label where
  line := by
    rw [label, String.toList_append]
    intro member
    rcases List.mem_append.1 member with inWord | inNote
    · exact not_mem_word h rfl inWord
    · exact note_on_line worded inNote
  start := by
    obtain ⟨c, cs, chars⟩ := List.exists_cons_of_ne_nil (word_letters h).1
    rw [label, String.toList_append, chars]
    intro same
    cases same
    exact not_mem_word h rfl (chars ▸ List.mem_cons_self)

end NodeHead

end Polyglot
