import Polyglot.Text.Quoted

/-!
# Texts that tell what they were made of

Where a separator comes first or last in a text, the text tells what stands before it and behind it.
Numbers are told by their digits. The written form of a character inside quotes ends where it ends,
whatever follows, and no two characters have the same one; so texts with the same quoted form are
the same.
-/

namespace Polyglot.Text

/-! ## Separators -/

variable {α : Type}

/-- A text is cut in one way only where a separator comes first. -/
theorem eq_of_append_cons {sep : α} {xs ys s t : List α} (apart : sep ∉ xs) (apart' : sep ∉ ys)
    (same : xs ++ sep :: s = ys ++ sep :: t) : xs = ys ∧ s = t := by
  induction xs generalizing ys with
  | nil =>
    cases ys with
    | nil => exact ⟨rfl, (List.cons.inj same).2⟩
    | cons y ys => exact absurd (List.cons.inj same).1 fun first => apart' (first ▸ List.mem_cons_self)
  | cons x xs ih =>
    cases ys with
    | nil => exact absurd (List.cons.inj same).1.symm fun first => apart (first ▸ List.mem_cons_self)
    | cons y ys =>
      obtain ⟨rfl, rest⟩ := List.cons.inj same
      obtain ⟨rfl, sameRest⟩ := ih (fun member => apart (List.mem_cons_of_mem _ member))
        (fun member => apart' (List.mem_cons_of_mem _ member)) rest
      exact ⟨rfl, sameRest⟩

/-- Nor in more than one where the separator comes last. -/
theorem eq_of_append_cons_last {sep : α} {xs ys s t : List α} (apart : sep ∉ s) (apart' : sep ∉ t)
    (same : xs ++ sep :: s = ys ++ sep :: t) : xs = ys ∧ s = t := by
  have reversed := congrArg List.reverse same
  simp only [List.reverse_append, List.reverse_cons, List.append_assoc, List.singleton_append]
    at reversed
  obtain ⟨sameAfter, sameBefore⟩ :=
    eq_of_append_cons (by simpa using apart) (by simpa using apart') reversed
  exact ⟨List.reverse_inj.1 sameBefore, List.reverse_inj.1 sameAfter⟩

/-- Nor where both rests are empty or begin with the separator. -/
theorem eq_of_append_of_head {sep : α} {xs ys s t : List α} (apart : sep ∉ xs) (apart' : sep ∉ ys)
    (head : ∀ c ∈ s.head?, c = sep) (head' : ∀ c ∈ t.head?, c = sep) (same : xs ++ s = ys ++ t) :
    xs = ys ∧ s = t := by
  cases s with
  | nil =>
    cases t with
    | nil => exact ⟨by simpa using same, rfl⟩
    | cons c t =>
      obtain rfl : c = sep := head' c rfl
      have inside : c ∈ xs := by
        rw [← List.append_nil xs, same]
        simp
      exact absurd inside apart
  | cons c s =>
    obtain rfl : c = sep := head c rfl
    cases t with
    | nil =>
      have inside : c ∈ ys := by
        rw [← List.append_nil ys, ← same]
        simp
      exact absurd inside apart'
    | cons d t =>
      obtain rfl : d = c := head' d rfl
      obtain ⟨before, after⟩ := eq_of_append_cons apart apart' same
      exact ⟨before, by rw [after]⟩

/-- The blanks before a text that begins otherwise are counted in one way only. -/
theorem eq_of_replicate_append {c : α} {m n : Nat} {xs ys : List α} (other : xs.head? ≠ some c)
    (other' : ys.head? ≠ some c) (same : List.replicate m c ++ xs = List.replicate n c ++ ys) :
    m = n ∧ xs = ys := by
  induction m generalizing n with
  | zero =>
    cases n with
    | zero => exact ⟨rfl, same⟩
    | succ n => exact absurd (congrArg List.head? same) other
  | succ m ih =>
    cases n with
    | zero => exact absurd (congrArg List.head? same).symm other'
    | succ n =>
      obtain ⟨rfl, sameText⟩ := ih (List.cons.inj same).2
      exact ⟨rfl, sameText⟩

/-! ## Numbers in base ten -/

theorem toList_toString (n : Nat) : (toString n).toList = Nat.toDigits 10 n :=
  Nat.toList_repr

theorem isDigit_of_mem_toString {n : Nat} {c : Char} (member : c ∈ (toString n).toList) :
    c.isDigit = true := by
  rw [toList_toString] at member
  exact Nat.isDigit_of_mem_toDigits (by decide) (by decide) member

theorem toString_injective {m n : Nat} (same : toString m = toString n) : m = n := by
  have value : ∀ k : Nat, Nat.ofDigitChars 10 (toString k).toList 0 = k := by
    intro k
    rw [toList_toString]
    exact Nat.ofDigitChars_toDigits (by decide) (by decide)
  rw [← value m, same, value n]

theorem toString_ne_nil (n : Nat) : (toString n).toList ≠ [] := by
  rw [toList_toString]
  exact Nat.toDigits_ne_nil

theorem toList_toString_int (n : Int) : (toString n).toList =
    (if n < 0 then ['-'] else []) ++ (toString n.natAbs).toList := by
  cases n with
  | ofNat k => rfl
  | negSucc k =>
    rw [if_pos (Int.negSucc_lt_zero k)]
    show ("-" ++ toString (k + 1)).toList = _
    rw [String.toList_append]
    rfl

/-- A whole number is written with digits and a sign. -/
theorem mem_toString_int {n : Int} {c : Char} (member : c ∈ (toString n).toList) :
    c.isDigit = true ∨ c = '-' := by
  rw [toList_toString_int] at member
  rcases List.mem_append.1 member with sign | digits
  · split at sign
    · exact .inr (List.mem_singleton.1 sign)
    · cases sign
  · exact .inl (isDigit_of_mem_toString digits)

/-! ## Numbers in base sixteen -/

theorem digitChar_injective {m n : Nat} (small : m < 16) (small' : n < 16)
    (same : m.digitChar = n.digitChar) : m = n := by
  have all : ∀ i < 16, ∀ j < 16, i.digitChar = j.digitChar → i = j := by decide
  exact all m small n small' same

theorem toDigits_sixteen_injective {m n : Nat} (same : Nat.toDigits 16 m = Nat.toDigits 16 n) :
    m = n := by
  induction m using Nat.strongRecOn generalizing n with
  | ind m ih =>
    have one : ∀ {k : Nat}, 16 ≤ k → (Nat.toDigits 16 k).length ≠ 1 := by
      intro k large
      rw [Nat.toDigits_of_base_le (by decide) large, List.length_append, List.length_singleton]
      have some := List.length_pos_iff.2 (Nat.toDigits_ne_nil (b := 16) (n := k / 16))
      omega
    by_cases small : m < 16
    · rw [Nat.toDigits_of_lt_base small] at same
      by_cases small' : n < 16
      · rw [Nat.toDigits_of_lt_base small'] at same
        exact digitChar_injective small small' (List.cons.inj same).1
      · exact absurd (congrArg List.length same).symm (one (Nat.not_lt.1 small'))
    · by_cases small' : n < 16
      · rw [Nat.toDigits_of_lt_base small'] at same
        exact absurd (congrArg List.length same) (one (Nat.not_lt.1 small))
      · rw [Nat.toDigits_of_base_le (by decide) (Nat.not_lt.1 small),
          Nat.toDigits_of_base_le (by decide) (Nat.not_lt.1 small')] at same
        obtain ⟨sameHigh, sameLow⟩ := List.append_inj' same rfl
        have high := ih (m / 16) (by omega) sameHigh
        have low := digitChar_injective (Nat.mod_lt m (by decide)) (Nat.mod_lt n (by decide))
          (List.cons.inj sameLow).1
        omega

theorem mem_toDigits_sixteen {n : Nat} {c : Char} (member : c ∈ Nat.toDigits 16 n) :
    c ∈ "0123456789abcdef".toList := by
  have digit : ∀ k < 16, k.digitChar ∈ "0123456789abcdef".toList := by decide
  induction n using Nat.strongRecOn with
  | ind n ih =>
    by_cases small : n < 16
    · rw [Nat.toDigits_of_lt_base small, List.mem_singleton] at member
      exact member ▸ digit n small
    · rw [Nat.toDigits_of_base_le (by decide) (Nat.not_lt.1 small)] at member
      rcases List.mem_append.1 member with high | low
      · exact ih (n / 16) (by omega) high
      · exact List.mem_singleton.1 low ▸ digit _ (Nat.mod_lt n (by decide))

/-! ## Written forms -/

/-- The characters that are written as a backslash and one more character, with that character. -/
def shortForms : List (Char × Char) :=
  [('\t', 't'), ('\r', 'r'), ('\n', 'n'), ('\x00', '0'), ('\"', '\"'), ('\\', '\\')]

/-- The written forms of a character. -/
inductive WrittenAs (c : Char) : List Char → Prop
  | plain (line : c ≠ '\n') (backslash : c ≠ '\\') : WrittenAs c [c]
  | short {form : Char} (member : (c, form) ∈ shortForms) : WrittenAs c ['\\', form]
  | code : WrittenAs c ('\\' :: 'u' :: '\x7b' :: (Nat.toDigits 16 c.toNat ++ ['\x7d']))

theorem writtenAs_escape (c : Char) : WrittenAs c (escape c).toList := by
  by_cases short : ∃ form, (c, form) ∈ shortForms
  · obtain ⟨form, member⟩ := short
    have written : (escape c).toList = ['\\', form] := by
      simp only [shortForms, List.mem_cons, Prod.mk.injEq, List.not_mem_nil, or_false] at member
      rcases member with ⟨rfl, rfl⟩ | ⟨rfl, rfl⟩ | ⟨rfl, rfl⟩ | ⟨rfl, rfl⟩ | ⟨rfl, rfl⟩ | ⟨rfl, rfl⟩
        <;> rfl
    exact written ▸ .short member
  · have apart : ∀ pair ∈ shortForms, c ≠ pair.1 := by
      rintro ⟨_, form⟩ member rfl
      exact short ⟨form, member⟩
    simp only [shortForms, List.forall_mem_cons] at apart
    obtain ⟨tab, carriage, line, null, quote, backslash, -⟩ := apart
    by_cases hidden : isHidden c = true
    · have written : (escape c).toList =
          '\\' :: 'u' :: '\x7b' :: (Nat.toDigits 16 c.toNat ++ ['\x7d']) := by
        simp [escape, hexDigits, tab, carriage, line, null, quote, backslash, hidden]
      exact written ▸ .code
    · have written : (escape c).toList = [c] := by
        simp [escape, tab, carriage, line, null, quote, backslash, hidden]
      exact written ▸ .plain line backslash

namespace WrittenAs

variable {c d : Char} {xs ys s t : List Char}

/-- A written form tells the character and where it ends. -/
theorem told (written : WrittenAs c xs) (written' : WrittenAs d ys) (same : xs ++ s = ys ++ t) :
    c = d ∧ s = t := by
  have forms : ∀ p ∈ shortForms, ∀ q ∈ shortForms, p.2 = q.2 → p.1 = q.1 := by decide
  have noCode : ∀ p ∈ shortForms, p.2 ≠ 'u' := by decide
  have noBrace : ∀ n, '\x7d' ∉ Nat.toDigits 16 n := fun n member =>
    absurd (mem_toDigits_sixteen member) (by decide)
  cases written with
  | plain _ backslash =>
    cases written' with
    | plain => exact List.cons.inj same
    | short => exact absurd (List.cons.inj same).1 backslash
    | code => exact absurd (List.cons.inj same).1 backslash
  | short member =>
    cases written' with
    | plain _ backslash => exact absurd (List.cons.inj same).1.symm backslash
    | short member' =>
      obtain ⟨sameForm, rest⟩ := List.cons.inj (List.cons.inj same).2
      exact ⟨forms _ member _ member' sameForm, rest⟩
    | code => exact absurd (List.cons.inj (List.cons.inj same).2).1 (noCode _ member)
  | code =>
    cases written' with
    | plain _ backslash => exact absurd (List.cons.inj same).1.symm backslash
    | short member => exact absurd (List.cons.inj (List.cons.inj same).2).1.symm (noCode _ member)
    | code =>
      simp only [List.cons_append, List.append_assoc, List.cons.injEq, true_and] at same
      obtain ⟨sameDigits, rest⟩ := eq_of_append_cons (noBrace _) (noBrace _) same
      exact ⟨Char.toNat_inj.1 (toDigits_sixteen_injective sameDigits), rest⟩

theorem on_line (written : WrittenAs c xs) : '\n' ∉ xs := by
  have forms : ∀ p ∈ shortForms, '\n' ∉ ['\\', p.2] := by decide
  have noBreak : ∀ n, '\n' ∉ Nat.toDigits 16 n := fun n member =>
    absurd (mem_toDigits_sixteen member) (by decide)
  cases written with
  | plain line => simpa using Ne.symm line
  | short member => exact forms _ member
  | code => simp [noBreak]

theorem ne_nil (written : WrittenAs c xs) : xs ≠ [] := by
  cases written <;> simp

end WrittenAs

/-! ## Quoted texts -/

/-- The written forms of the characters of a text, one after the other. -/
def escapes (cs : List Char) : List Char :=
  cs.flatMap fun c => (escape c).toList

theorem toList_quoted (s : String) : (quoted s).toList = '\"' :: (escapes s.toList ++ ['\"']) := by
  have written : ∀ (cs : List Char) (out : String),
      (cs.foldl (fun out c => out ++ escape c) out).toList = out.toList ++ escapes cs := by
    intro cs
    induction cs with
    | nil => simp [escapes]
    | cons c cs ih =>
      intro out
      rw [List.foldl_cons, ih, String.toList_append, List.append_assoc]
      rfl
  rw [quoted, String.toList_append, written]
  rfl

theorem escapes_injective {cs ds : List Char} (same : escapes cs = escapes ds) : cs = ds := by
  induction cs generalizing ds with
  | nil =>
    cases ds with
    | nil => rfl
    | cons d ds =>
      exact absurd (List.append_eq_nil_iff.1 same.symm).1 (writtenAs_escape d).ne_nil
  | cons c cs ih =>
    cases ds with
    | nil => exact absurd (List.append_eq_nil_iff.1 same).1 (writtenAs_escape c).ne_nil
    | cons d ds =>
      obtain ⟨rfl, rest⟩ := (writtenAs_escape c).told (writtenAs_escape d) same
      rw [ih rest]

/-- Texts with the same quoted form are the same. -/
theorem quoted_injective {s t : String} (same : quoted s = quoted t) : s = t := by
  have chars := congrArg String.toList same
  rw [toList_quoted, toList_quoted] at chars
  have inside := List.append_cancel_right (List.cons.inj chars).2
  exact String.toList_injective (escapes_injective inside)

/-- A quoted text has no line break. -/
theorem quoted_on_line (s : String) : '\n' ∉ (quoted s).toList := by
  rw [toList_quoted]
  intro member
  rcases List.mem_cons.1 member with quote | inside
  · cases quote
  · rcases List.mem_append.1 inside with written | quote
    · obtain ⟨c, -, here⟩ := List.mem_flatMap.1 written
      exact (writtenAs_escape c).on_line here
    · cases List.mem_singleton.1 quote

end Polyglot.Text
