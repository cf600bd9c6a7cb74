import Polyglot.Program.Outline
import Polyglot.Proofs.Text.Quoted

/-!
# The layout of outlines

A tree with labels and positions is written as lines, one a node, each a level deeper than that of
the node it belongs to. The lines tell the tree: to a node belong the lines up to the next one that
is not deeper. The text tells the lines, provided that no label begins with a blank or goes beyond
its line.
-/

namespace Polyglot

/-! ## Lines -/

/-- A position is written with digits and a colon. -/
theorem Position.mem_text {p : Position} {c : Char} (member : c ∈ p.text.toList) :
    c.isDigit = true ∨ c = ':' := by
  simp only [text, String.toList_append, List.mem_append] at member
  rcases member with (line | colon) | column
  · exact .inl (Text.isDigit_of_mem_toString line)
  · exact .inr (List.mem_singleton.1 colon)
  · exact .inl (Text.isDigit_of_mem_toString column)

theorem Position.text_injective {p q : Position} (same : p.text = q.text) : p = q := by
  have noColon : ∀ n : Nat, ':' ∉ (toString n).toList := by
    intro n member
    exact absurd (Text.isDigit_of_mem_toString member) (by decide)
  have written : ∀ r : Position,
      r.text.toList = (toString r.line).toList ++ ':' :: (toString r.column).toList := by
    intro r
    simp [text]
  have chars := congrArg String.toList same
  rw [written, written] at chars
  obtain ⟨sameLine, sameColumn⟩ := Text.eq_of_append_cons (noColon _) (noColon _) chars
  obtain ⟨line, column⟩ := p
  obtain ⟨line', column'⟩ := q
  obtain rfl : line = line' := Text.toString_injective (String.toList_injective sameLine)
  obtain rfl : column = column' := Text.toString_injective (String.toList_injective sameColumn)
  rfl

/-- A label that stands on its line and does not begin with a blank. -/
structure IsLabel (label : String) : Prop where
  line : '\n' ∉ label.toList
  start : label.toList.head? ≠ some ' '

namespace OutlineLine

/-- The text of a line without its line break. -/
def content (l : OutlineLine) : List Char :=
  List.replicate (2 * l.level) ' ' ++ l.label.toList ++ ' ' :: '@' :: l.pos.text.toList

theorem toList_text (l : OutlineLine) : l.text.toList = l.content ++ ['\n'] := by
  simp [text, content]

theorem content_on_line {l : OutlineLine} (isLabel : IsLabel l.label) : '\n' ∉ l.content := by
  intro member
  simp only [content, List.mem_append, List.mem_replicate, List.mem_cons] at member
  rcases member with (⟨-, blank⟩ | label) | blank | mark | pos
  · cases blank
  · exact isLabel.line label
  · cases blank
  · cases mark
  · rcases Position.mem_text pos with digit | colon
    · cases digit
    · cases colon

theorem content_injective {l k : OutlineLine} (isLabel : IsLabel l.label)
    (isLabel' : IsLabel k.label) (same : l.content = k.content) : l = k := by
  have noMark : ∀ p : Position, '@' ∉ p.text.toList := by
    intro p member
    rcases Position.mem_text member with digit | colon
    · cases digit
    · cases colon
  have split : ∀ r : OutlineLine, r.content =
      (List.replicate (2 * r.level) ' ' ++ r.label.toList ++ [' ']) ++ '@' :: r.pos.text.toList := by
    intro r
    simp [content]
  rw [split, split] at same
  obtain ⟨before, samePos⟩ := Text.eq_of_append_cons_last (noMark _) (noMark _) same
  have indented := List.append_cancel_right before
  obtain ⟨sameLevel, sameLabel⟩ :=
    Text.eq_of_replicate_append isLabel.start isLabel'.start indented
  obtain ⟨level, label, pos⟩ := l
  obtain ⟨level', label', pos'⟩ := k
  obtain rfl : level = level' := Nat.eq_of_mul_eq_mul_left (by decide) sameLevel
  obtain rfl : label = label' := String.toList_injective sameLabel
  obtain rfl : pos = pos' := Position.text_injective (String.toList_injective samePos)
  rfl

/-- The text of some lines tells what they are. -/
theorem texts_injective {ls ks : List OutlineLine} (labels : ∀ l ∈ ls, IsLabel l.label)
    (labels' : ∀ k ∈ ks, IsLabel k.label)
    (same : ls.flatMap (fun l => l.text.toList) = ks.flatMap fun k => k.text.toList) : ls = ks := by
  induction ls generalizing ks with
  | nil =>
    cases ks with
    | nil => rfl
    | cons k ks => simp [toList_text] at same
  | cons l ls ih =>
    cases ks with
    | nil => simp [toList_text] at same
    | cons k ks =>
      obtain ⟨label, rest⟩ := List.forall_mem_cons.1 labels
      obtain ⟨label', rest'⟩ := List.forall_mem_cons.1 labels'
      rw [List.flatMap_cons, List.flatMap_cons, toList_text, toList_text, List.append_assoc,
        List.append_assoc] at same
      obtain ⟨sameLine, sameRest⟩ :=
        Text.eq_of_append_cons (content_on_line label) (content_on_line label') same
      rw [content_injective label label' sameLine, ih rest rest' sameRest]

end OutlineLine

/-! ## Trees -/

/-- A tree with a label and a position at every node. -/
inductive OutlineTree (α : Type)
  | node (label : α) (pos : Position) (parts : List (OutlineTree α))

namespace OutlineTree

variable {α : Type}

mutual

/-- Every label of the tree is such. -/
def All (good : α → Prop) : OutlineTree α → Prop
  | node label _ parts => good label ∧ AllIn good parts

/-- Every label of every tree of a list is such. -/
def AllIn (good : α → Prop) : List (OutlineTree α) → Prop
  | [] => True
  | t :: ts => t.All good ∧ AllIn good ts

end

theorem allIn_iff {good : α → Prop} {ts : List (OutlineTree α)} :
    AllIn good ts ↔ ∀ t ∈ ts, t.All good := by
  induction ts with
  | nil => simp [AllIn]
  | cons t ts ih => simp [AllIn, ih]

mutual

/-- The lines of a tree whose root is at a level. -/
def lines (text : α → String) (level : Nat) : OutlineTree α → List OutlineLine
  | node label pos parts => ⟨level, text label, pos⟩ :: linesAll text (level + 1) parts

/-- The lines of several trees at a level. -/
def linesAll (text : α → String) (level : Nat) : List (OutlineTree α) → List OutlineLine
  | [] => []
  | t :: ts => t.lines text level ++ linesAll text level ts

end

theorem linesAll_append (text : α → String) (level : Nat) (ts us : List (OutlineTree α)) :
    linesAll text level (ts ++ us) = linesAll text level ts ++ linesAll text level us := by
  induction ts with
  | nil => rfl
  | cons t ts ih => rw [List.cons_append, linesAll, linesAll, ih, List.append_assoc]

/-- The lines begin above a level, if there are any. -/
def Above (level : Nat) (ls : List OutlineLine) : Prop :=
  ∀ l ∈ ls.head?, l.level < level

theorem Above.succ {level : Nat} {ls : List OutlineLine} (above : Above level ls) :
    Above (level + 1) ls :=
  fun l first => Nat.lt_succ_of_lt (above l first)

theorem above_linesAll {text : α → String} {level : Nat} (ts : List (OutlineTree α))
    {rest : List OutlineLine} (above : Above level rest) :
    Above (level + 1) (linesAll text level ts ++ rest) := by
  cases ts with
  | nil => exact above.succ
  | cons t ts =>
    cases t with
    | node label pos parts =>
      intro l first
      cases first
      exact Nat.lt_succ_self level

theorem not_above_linesAll {text : α → String} {level : Nat} {t : OutlineTree α}
    {ts : List (OutlineTree α)} {rest : List OutlineLine} :
    ¬ Above level (linesAll text level (t :: ts) ++ rest) := by
  cases t with
  | node label pos parts =>
    intro above
    exact Nat.lt_irrefl level (above _ rfl)

variable {good : α → Prop} {text : α → String}

mutual

/-- The lines tell the tree and where it ends. -/
theorem lines_injective (told : ∀ {a b}, good a → good b → text a = text b → a = b) :
    ∀ (t u : OutlineTree α) {level : Nat} {rest rest' : List OutlineLine},
    t.All good → u.All good → Above (level + 1) rest → Above (level + 1) rest' →
    t.lines text level ++ rest = u.lines text level ++ rest' → t = u ∧ rest = rest'
  | node a p ts, node b q us, _, _, _, goodT, goodU, above, above', same => by
    obtain ⟨first, others⟩ := List.cons.inj same
    obtain ⟨-, label, pos⟩ := OutlineLine.mk.inj first
    obtain ⟨sameParts, sameRest⟩ :=
      linesAll_injective told ts us goodT.2 goodU.2 above above' others
    exact ⟨by rw [told goodT.1 goodU.1 label, pos, sameParts], sameRest⟩

theorem linesAll_injective (told : ∀ {a b}, good a → good b → text a = text b → a = b) :
    ∀ (ts us : List (OutlineTree α)) {level : Nat} {rest rest' : List OutlineLine},
    AllIn good ts → AllIn good us → Above level rest → Above level rest' →
    linesAll text level ts ++ rest = linesAll text level us ++ rest' → ts = us ∧ rest = rest'
  | [], [], _, _, _, _, _, _, _, same => ⟨rfl, same⟩
  | [], u :: us, _, _, _, _, _, above, _, same =>
    absurd ((congrArg (Above _) same).mp above) not_above_linesAll
  | t :: ts, [], _, _, _, _, _, _, above', same =>
    absurd ((congrArg (Above _) same).mpr above') not_above_linesAll
  | t :: ts, u :: us, _, _, _, goodT, goodU, above, above', same => by
    rw [linesAll, linesAll, List.append_assoc, List.append_assoc] at same
    obtain ⟨sameTree, others⟩ := lines_injective told t u goodT.1 goodU.1
      (above_linesAll ts above) (above_linesAll us above') same
    obtain ⟨sameTrees, sameRest⟩ :=
      linesAll_injective told ts us goodT.2 goodU.2 above above' others
    exact ⟨by rw [sameTree, sameTrees], sameRest⟩

end

mutual

/-- The labels of the lines are those of the tree. -/
theorem label_of_mem_lines {ok : String → Prop}
    (written : ∀ {a}, good a → ok (text a)) : ∀ (t : OutlineTree α) {level : Nat} {l : OutlineLine},
    t.All good → l ∈ t.lines text level → ok l.label
  | node label pos parts, _, _, goodT, member => by
    rcases List.mem_cons.1 member with rfl | later
    · exact written goodT.1
    · exact label_of_mem_linesAll written parts goodT.2 later

theorem label_of_mem_linesAll {ok : String → Prop}
    (written : ∀ {a}, good a → ok (text a)) : ∀ (ts : List (OutlineTree α)) {level : Nat}
    {l : OutlineLine}, AllIn good ts → l ∈ linesAll text level ts → ok l.label
  | t :: ts, _, _, goodT, member => by
    rcases List.mem_append.1 member with first | later
    · exact label_of_mem_lines written t goodT.1 first
    · exact label_of_mem_linesAll written ts goodT.2 later

end

end OutlineTree

end Polyglot
