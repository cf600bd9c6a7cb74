import Mathlib.Order.Bounds.Defs
import Mathlib.Order.MinMax
import Polyglot.DistanceTable

/-!
# Edit distance and suggestions

The table of distances holds, row by row, the distances of the prefixes of one text to those of the
other, and the distance is the least number of edits that turn the one text into the other. The
name suggested for another is the first of the nearest ones.
-/

namespace Polyglot

/-! ## Edits -/

/-- One character is inserted, deleted or replaced. -/
inductive Edit : List Char → List Char → Prop
  | insert (before after : List Char) (c : Char) : Edit (before ++ after) (before ++ c :: after)
  | delete (before after : List Char) (c : Char) : Edit (before ++ c :: after) (before ++ after)
  | substitute (before after : List Char) (c d : Char) :
    Edit (before ++ c :: after) (before ++ d :: after)

/-- So many edits in turn lead from one text to another. -/
inductive Edits : Nat → List Char → List Char → Prop
  | none (text : List Char) : Edits 0 text text
  | step {n : Nat} {a b c : List Char} (first : Edit a b) (rest : Edits n b c) : Edits (n + 1) a c

namespace Edit

variable {a b : List Char}

theorem symm (edit : Edit a b) : Edit b a := by
  cases edit with
  | insert before after c => exact .delete before after c
  | delete before after c => exact .insert before after c
  | substitute before after c d => exact .substitute before after d c

theorem cons (c : Char) (edit : Edit a b) : Edit (c :: a) (c :: b) := by
  cases edit with
  | insert before after d => exact .insert (c :: before) after d
  | delete before after d => exact .delete (c :: before) after d
  | substitute before after d e => exact .substitute (c :: before) after d e

theorem reverse (edit : Edit a b) : Edit a.reverse b.reverse := by
  cases edit with
  | insert before after c => simpa using Edit.insert after.reverse before.reverse c
  | delete before after c => simpa using Edit.delete after.reverse before.reverse c
  | substitute before after c d => simpa using Edit.substitute after.reverse before.reverse c d

theorem length_le (edit : Edit a b) : a.length ≤ b.length + 1 := by
  cases edit <;> simp <;> omega

end Edit

namespace Edits

variable {m n : Nat} {a b c : List Char}

theorem single (edit : Edit a b) : Edits 1 a b :=
  .step edit (.none b)

theorem trans (first : Edits m a b) (second : Edits n b c) : Edits (m + n) a c := by
  induction first with
  | none text => simpa using second
  | @step m a _ _ edit _ ih =>
    have later := Edits.step edit (ih second)
    rwa [Nat.add_right_comm] at later

theorem symm (edits : Edits n a b) : Edits n b a := by
  induction edits with
  | none text => exact .none text
  | step edit _ ih => exact ih.trans (.single edit.symm)

theorem cons (d : Char) (edits : Edits n a b) : Edits n (d :: a) (d :: b) := by
  induction edits with
  | none text => exact .none (d :: text)
  | step edit _ ih => exact .step (edit.cons d) ih

theorem reverse (edits : Edits n a b) : Edits n a.reverse b.reverse := by
  induction edits with
  | none text => exact .none text.reverse
  | step edit _ ih => exact .step edit.reverse ih

theorem reverse_iff : Edits n a.reverse b.reverse ↔ Edits n a b := by
  refine ⟨fun edits => ?_, reverse⟩
  simpa using edits.reverse

theorem eq_of_zero (edits : Edits 0 a b) : a = b := by
  cases edits
  rfl

theorem length_le (edits : Edits n a b) : a.length ≤ b.length + n := by
  induction edits with
  | none => simp
  | step edit _ ih =>
    have first := edit.length_le
    omega

theorem insertAll (b : List Char) : Edits b.length [] b := by
  induction b with
  | nil => exact .none []
  | cons d b ih => exact .step (.insert [] [] d) (ih.cons d)

end Edits

/-! ## The distance by its recursion -/

/-- The distance of two texts by what becomes of their first characters: one of them is put in or
left out, or the first one becomes the second one. -/
def distanceFrom : List Char → List Char → Nat
  | [], b => b.length
  | c :: a, [] => a.length + 1
  | c :: a, d :: b =>
    min (min (distanceFrom a (d :: b) + 1) (distanceFrom (c :: a) b + 1))
      (distanceFrom a b + if c = d then 0 else 1)
termination_by a b => a.length + b.length

section

variable (a b : List Char)

@[simp] theorem distanceFrom_nil_left : distanceFrom [] b = b.length := by
  rw [distanceFrom]

@[simp] theorem distanceFrom_nil_right : distanceFrom a [] = a.length := by
  cases a <;> simp [distanceFrom]

theorem distanceFrom_cons_cons (c d : Char) :
    distanceFrom (c :: a) (d :: b) =
      min (min (distanceFrom a (d :: b) + 1) (distanceFrom (c :: a) b + 1))
        (distanceFrom a b + if c = d then 0 else 1) := by
  rw [distanceFrom]

theorem distanceFrom_cons_left (c : Char) : distanceFrom (c :: a) b ≤ distanceFrom a b + 1 := by
  cases b with
  | nil => simp
  | cons d b =>
    rw [distanceFrom_cons_cons]
    omega

theorem distanceFrom_cons_right (d : Char) : distanceFrom a (d :: b) ≤ distanceFrom a b + 1 := by
  cases a with
  | nil => simp
  | cons c a =>
    rw [distanceFrom_cons_cons]
    omega

theorem distanceFrom_cons_same (c : Char) : distanceFrom (c :: a) (c :: b) ≤ distanceFrom a b := by
  rw [distanceFrom_cons_cons, if_pos rfl]
  omega

end

/-- So many edits suffice as the distance says. -/
theorem edits_distanceFrom (a b : List Char) : Edits (distanceFrom a b) a b := by
  fun_induction distanceFrom a b with
  | case1 b => exact .insertAll b
  | case2 c a => exact (Edits.insertAll (c :: a)).symm
  | case3 c a d b leave put swap =>
    have leaving : Edits (distanceFrom a (d :: b) + 1) (c :: a) (d :: b) :=
      .step (.delete [] a c) leave
    have putting : Edits (distanceFrom (c :: a) b + 1) (c :: a) (d :: b) :=
      put.trans (.single (.insert [] b d))
    have swapping : Edits (distanceFrom a b + if c = d then 0 else 1) (c :: a) (d :: b) := by
      by_cases same : c = d
      · subst same
        rw [if_pos rfl]
        exact swap.cons c
      · rw [if_neg same]
        exact (swap.cons c).trans (.single (.substitute [] b c d))
    have first := min_rec' (fun n => Edits n (c :: a) (d :: b)) leaving putting
    exact min_rec' (fun n => Edits n (c :: a) (d :: b)) first swapping

/-- Putting the characters of one text in place of those of the other is a way. -/
theorem distanceFrom_le_max (a b : List Char) : distanceFrom a b ≤ max a.length b.length := by
  fun_induction distanceFrom a b with
  | case1 b => simp
  | case2 c a => simp
  | case3 c a d b _ _ swap =>
    have cost : (if c = d then 0 else 1) ≤ 1 := by split <;> omega
    simp only [List.length_cons]
    omega

/-- The way over a third text is no shorter: what becomes of the first characters on both parts of
it says what can become of them at once. -/
theorem distanceFrom_triangle (a b c : List Char) :
    distanceFrom a c ≤ distanceFrom a b + distanceFrom b c := by
  induction a generalizing b c with
  | nil =>
    have ends := (edits_distanceFrom b c).symm.length_le
    simpa [Nat.add_comm] using ends
  | cons x a withoutX =>
    induction b generalizing c with
    | nil =>
      have most := distanceFrom_le_max (x :: a) c
      simp only [distanceFrom_nil_left, distanceFrom_nil_right]
      omega
    | cons y b withoutY =>
      induction c with
      | nil =>
        have ends := (edits_distanceFrom (x :: a) (y :: b)).length_le
        simp only [distanceFrom_nil_right]
        omega
      | cons z c withoutZ =>
        have left := withoutX (y :: b) (z :: c)
        have gone := withoutY (z :: c)
        have all := withoutX b c
        have crossed := withoutX b (z :: c)
        have kept := withoutY c
        have cost : (if x = z then 0 else 1) ≤
            (if x = y then 0 else 1) + if y = z then 0 else 1 := by
          split
          · exact Nat.zero_le _
          · rename_i apart
            by_cases same : x = y
            · subst same
              rw [if_neg apart]
              exact Nat.le_add_left _ _
            · rw [if_neg same]
              exact Nat.le_add_right _ _
        have direct := distanceFrom_cons_cons a c x z
        have first := distanceFrom_cons_cons a b x y
        have second := distanceFrom_cons_cons b c y z
        omega

@[simp] theorem distanceFrom_self (a : List Char) : distanceFrom a a = 0 := by
  induction a with
  | nil => simp
  | cons c a ih =>
    have same := distanceFrom_cons_same a a c
    omega

theorem distanceFrom_append (before a b : List Char) :
    distanceFrom (before ++ a) (before ++ b) ≤ distanceFrom a b := by
  induction before with
  | nil => exact Nat.le_refl _
  | cons c before ih => exact (distanceFrom_cons_same _ _ c).trans ih

/-- One edit makes a distance of at most one. -/
theorem Edit.distanceFrom_le {a b : List Char} (edit : Edit a b) : distanceFrom a b ≤ 1 := by
  cases edit with
  | insert before after c =>
    have put := distanceFrom_cons_right after after c
    rw [distanceFrom_self] at put
    exact (distanceFrom_append before _ _).trans put
  | delete before after c =>
    have leave := distanceFrom_cons_left after after c
    rw [distanceFrom_self] at leave
    exact (distanceFrom_append before _ _).trans leave
  | substitute before after c d =>
    refine (distanceFrom_append before _ _).trans ?_
    rw [distanceFrom_cons_cons, distanceFrom_self]
    split <;> omega

/-- No fewer edits suffice than the distance says. -/
theorem Edits.distanceFrom_le {n : Nat} {a b : List Char} (edits : Edits n a b) :
    distanceFrom a b ≤ n := by
  induction edits with
  | none text => rw [distanceFrom_self]
  | @step n a b c edit _ ih =>
    have first := edit.distanceFrom_le
    have detour := distanceFrom_triangle a b c
    omega

/-! ## The table -/

/-- The row of the table for a text, from a prefix of the other text on, of which `bs` is the rest.
Both the text and the prefix are reversed: their last characters come first. -/
def distancesFrom (a : List Char) : List Char → List Char → List Nat
  | before, [] => [distanceFrom a before]
  | before, d :: bs => distanceFrom a before :: distancesFrom a (d :: before) bs

theorem distancesFrom_eq_cons (a before bs : List Char) :
    ∃ later, distancesFrom a before bs = distanceFrom a before :: later := by
  cases bs <;> exact ⟨_, rfl⟩

/-- The rest of a row is made from the row above it and the entry on the left. -/
theorem distanceRow_eq (c : Char) (a before bs : List Char) :
    distanceRow c (distanceFrom (c :: a) before) bs (distancesFrom a before bs) =
      (distancesFrom (c :: a) before bs).tail := by
  induction bs generalizing before with
  | nil => rfl
  | cons d bs ih =>
    obtain ⟨later, above⟩ := distancesFrom_eq_cons a (d :: before) bs
    have here := distanceFrom_cons_cons a before c d
    obtain ⟨after, row⟩ := distancesFrom_eq_cons (c :: a) (d :: before) bs
    have rest := ih (d :: before)
    rw [above, row, List.tail_cons] at rest
    rw [distancesFrom, distancesFrom, above, row, List.tail_cons, distanceRow, ← here, rest]

theorem nextDistanceRow_eq (c : Char) (a b : List Char) :
    nextDistanceRow b (distancesFrom a [] b) c = distancesFrom (c :: a) [] b := by
  obtain ⟨later, row⟩ := distancesFrom_eq_cons a [] b
  obtain ⟨after, next⟩ := distancesFrom_eq_cons (c :: a) [] b
  have first : (distancesFrom a [] b).headD 0 + 1 = distanceFrom (c :: a) [] := by
    simp [row]
  rw [nextDistanceRow, first, distanceRow_eq, next, List.tail_cons]

/-- The table begins with the distances of nothing. -/
theorem distancesFrom_nil (before b : List Char) :
    distancesFrom [] before b = List.range' before.length (b.length + 1) := by
  induction b generalizing before with
  | nil => simp [distancesFrom]
  | cons d b ih => simp [distancesFrom, ih, List.range'_succ]

/-- The table row by row. -/
theorem foldl_nextDistanceRow (a read b : List Char) :
    a.foldl (nextDistanceRow b) (distancesFrom read [] b) =
      distancesFrom (a.reverse ++ read) [] b := by
  induction a generalizing read with
  | nil => rfl
  | cons c a ih =>
    rw [List.foldl_cons, nextDistanceRow_eq, ih, List.reverse_cons, List.append_assoc,
      List.singleton_append]

theorem getLastD_distancesFrom (a before b : List Char) :
    (distancesFrom a before b).getLastD 0 = distanceFrom a (b.reverse ++ before) := by
  induction b generalizing before with
  | nil => rfl
  | cons d b ih =>
    obtain ⟨later, row⟩ := distancesFrom_eq_cons a (d :: before) b
    have last := ih (d :: before)
    rw [row] at last
    rw [distancesFrom, row]
    simpa using last

theorem editDistance_eq (a b : List Char) :
    editDistance a b = distanceFrom a.reverse b.reverse := by
  have begin' : List.range (b.length + 1) = distancesFrom [] [] b := by
    rw [distancesFrom_nil, List.range_eq_range', List.length_nil]
  rw [editDistance, begin', foldl_nextDistanceRow, getLastD_distancesFrom, List.append_nil,
    List.append_nil]

/-- The distance is the least number of edits. -/
theorem isLeast_editDistance (a b : List Char) : IsLeast {n | Edits n a b} (editDistance a b) := by
  rw [editDistance_eq]
  refine ⟨?_, ?_⟩
  · exact Edits.reverse_iff.1 (edits_distanceFrom a.reverse b.reverse)
  · exact fun n edits => edits.reverse.distanceFrom_le

/-! ## The table in two rows -/

namespace DistanceTable

theorem drop_toList (row : Array Nat) {i : Nat} (inside : i < row.size) :
    row.toList.drop i = row.getD i 0 :: row.toList.drop (i + 1) := by
  rw [List.drop_eq_getElem_cons (by simpa using inside)]
  simp [Array.getD_eq_getD_getElem?, inside]

theorem size_fill (c : Char) (last : Array Nat) (j : Nat) (bs : List Char) (row : Array Nat) :
    (fill c last j bs row).size = row.size := by
  induction bs generalizing j row with
  | nil => rfl
  | cons b bs ih => rw [fill, ih, Array.size_setIfInBounds]

/-- A row is written from its first place on, whatever stood in the others. -/
theorem toList_fill {c : Char} {last row : Array Nat} {j : Nat} {bs : List Char}
    (above : last.size = j + bs.length + 1) (size : row.size = j + bs.length + 1) :
    (fill c last j bs row).toList =
      row.toList.take (j + 1) ++ distanceRow c (row.getD j 0) bs (last.toList.drop j) := by
  induction bs generalizing j row with
  | nil =>
    have whole : row.toList.take (j + 1) = row.toList := List.take_of_length_le (by simp [size])
    simp [fill, distanceRow, whole]
  | cons b bs ih =>
    rw [List.length_cons] at above size
    have inside : j + 1 < last.size := by omega
    have up := drop_toList last inside
    have diagonal := drop_toList last (Nat.lt_of_succ_lt inside)
    rw [fill, diagonal, up, distanceRow]
    generalize min (min (last.getD (j + 1) 0 + 1) (row.getD j 0 + 1))
      (last.getD j 0 + if c = b then 0 else 1) = entry
    have written : (row.setIfInBounds (j + 1) entry).toList.take (j + 2) =
        row.toList.take (j + 1) ++ [entry] := by
      rw [Array.toList_setIfInBounds, List.take_add_one, List.take_set_of_le (Nat.le_refl _)]
      simp [size]
    have here : (row.setIfInBounds (j + 1) entry).getD (j + 1) 0 = entry := by
      simp [Array.getD_eq_getD_getElem?, size]
    rw [ih (by omega) (by simp; omega), written, here, up, List.append_assoc, List.singleton_append]

/-- Both rows have a place for every prefix of the text above. -/
structure Wide (bs : List Char) (table : DistanceTable) : Prop where
  last : table.last.size = bs.length + 1
  spare : table.spare.size = bs.length + 1

theorem Wide.next {bs : List Char} {table : DistanceTable} (wide : Wide bs table) (i : Nat)
    (c : Char) : Wide bs (table.next bs i c) where
  last := by rw [DistanceTable.next, size_fill, Array.size_setIfInBounds, wide.spare]
  spare := wide.last

/-- The next row does not depend on what the spare row held. -/
theorem Wide.toList_next {bs : List Char} {table : DistanceTable} (wide : Wide bs table)
    (c : Char) :
    (table.next bs (table.last.toList.headD 0 + 1) c).last.toList =
      nextDistanceRow bs table.last.toList c := by
  generalize first : table.last.toList.headD 0 + 1 = i
  have size : (table.spare.setIfInBounds 0 i).size = 0 + bs.length + 1 := by
    rw [Array.size_setIfInBounds, wide.spare, Nat.zero_add]
  have left : (table.spare.setIfInBounds 0 i).getD 0 0 = i := by
    simp [Array.getD_eq_getD_getElem?, wide.spare]
  have start : (table.spare.setIfInBounds 0 i).toList.take 1 = [i] := by
    simp [List.take_one, List.head?_eq_getElem?, wide.spare]
  have above : table.last.size = 0 + bs.length + 1 := by
    rw [wide.last, Nat.zero_add]
  rw [nextDistanceRow, first, DistanceTable.next, toList_fill above size, left, start]
  rfl

theorem Wide.readAll {bs : List Char} {table : DistanceTable} (wide : Wide bs table) (i : Nat)
    (cs : List Char) : Wide bs (table.readAll bs i cs) := by
  induction cs generalizing table i with
  | nil => exact wide
  | cons c cs ih => exact ih (wide.next i c) (i + 1)

theorem Wide.toList_readAll {bs : List Char} {table : DistanceTable} {i : Nat}
    (wide : Wide bs table) (number : table.last.toList.headD 0 + 1 = i) (cs : List Char) :
    (table.readAll bs i cs).last.toList = cs.foldl (nextDistanceRow bs) table.last.toList := by
  induction cs generalizing table i with
  | nil => rfl
  | cons c cs ih =>
    have row := wide.toList_next c
    rw [number] at row
    have number' : (table.next bs i c).last.toList.headD 0 + 1 = i + 1 := by
      rw [row, nextDistanceRow, number]
      rfl
    rw [DistanceTable.readAll, List.foldl_cons, ih (wide.next i c) number', row]

theorem wide_initial (bs : List Char) : Wide bs (initial bs.length) where
  last := by simp [initial]
  spare := by simp [initial]

theorem toList_initial (width : Nat) :
    (initial width).last.toList = List.range (width + 1) := rfl

/-- The entry at the end of the last row is the distance. -/
theorem distance_eq (a b : List Char) : distance a b = editDistance a b := by
  unfold distance
  by_cases nothing : a.isEmpty = true
  · rw [if_pos nothing, List.isEmpty_iff.1 nothing, editDistance_eq]
    simp
  rw [if_neg nothing]
  by_cases nothing' : b.isEmpty = true
  · rw [if_pos nothing', List.isEmpty_iff.1 nothing', editDistance_eq]
    simp
  rw [if_neg nothing']
  have wide := wide_initial b
  have first : (initial b.length).last.toList.headD 0 + 1 = 1 := by
    simp [toList_initial, List.range_succ_eq_map]
  have rows := wide.toList_readAll first a
  have size := (wide.readAll 1 a).last
  rw [toList_initial] at rows
  rw [editDistance, ← rows, List.getLastD_eq_getLast?, List.getLast?_eq_getElem?]
  simp [size, Array.getD_eq_getD_getElem?]

end DistanceTable

/-! ## Suggestions -/

/-- The candidate is another name that lies within the threshold: nearer than those before it, and
no farther than those after it. -/
structure FirstNearest (name : String) (threshold : Nat) (candidates : List String)
    (found : String) : Prop where
  other : found ≠ name
  near : editDistance name.toList found.toList ≤ threshold
  first : ∃ before after, candidates = before ++ found :: after ∧
    (∀ c ∈ before, c ≠ name →
      editDistance name.toList found.toList < editDistance name.toList c.toList) ∧
    ∀ c ∈ after, c ≠ name →
      editDistance name.toList found.toList ≤ editDistance name.toList c.toList

/-- All candidates are the name itself or too far away. -/
def AllFar (name : String) (threshold : Nat) (candidates : List String) : Prop :=
  ∀ c ∈ candidates, c = name ∨ threshold < editDistance name.toList c.toList

/-- The choice among the candidates so far: the first nearest one with its distance, or none. -/
def ChosenFrom (name : String) (threshold : Nat) (candidates : List String) :
    Option (String × Nat) → Prop
  | none => AllFar name threshold candidates
  | some (found, d) => d = editDistance name.toList found.toList ∧
    FirstNearest name threshold candidates found

section

variable {name : String} {threshold : Nat} {candidates : List String}

theorem AllFar.not_firstNearest (far : AllFar name threshold candidates) {found : String} :
    ¬ FirstNearest name threshold candidates found := by
  rintro ⟨other, near, before, after, rfl, -, -⟩
  rcases far found (by simp) with same | beyond
  · exact other same
  · omega

theorem FirstNearest.le {found : String} (chosen : FirstNearest name threshold candidates found) :
    ∀ c ∈ candidates, c ≠ name →
      editDistance name.toList found.toList ≤ editDistance name.toList c.toList := by
  obtain ⟨-, -, before, after, rfl, nearer, noFarther⟩ := chosen
  intro c member other
  rcases List.mem_append.1 member with earlier | onwards
  · exact Nat.le_of_lt (nearer c earlier other)
  · rcases List.mem_cons.1 onwards with same | later
    · rw [same]
    · exact noFarther c later other

/-- A candidate that is not nearer than the one found does not change the choice. -/
theorem FirstNearest.append {found c : String}
    (chosen : FirstNearest name threshold candidates found)
    (passed : c ≠ name →
      editDistance name.toList found.toList ≤ editDistance name.toList c.toList) :
    FirstNearest name threshold (candidates ++ [c]) found := by
  obtain ⟨other, near, before, after, rfl, nearer, noFarther⟩ := chosen
  refine ⟨other, near, before, after ++ [c], by simp, nearer, ?_⟩
  intro d member
  rcases List.mem_append.1 member with listed | last
  · exact noFarther d listed
  · rw [List.mem_singleton.1 last]
    exact passed

/-- A candidate that is nearer than all before it is chosen. -/
theorem FirstNearest.last {c : String} (other : c ≠ name)
    (near : editDistance name.toList c.toList ≤ threshold)
    (nearer : ∀ d ∈ candidates, d ≠ name →
      editDistance name.toList c.toList < editDistance name.toList d.toList) :
    FirstNearest name threshold (candidates ++ [c]) c :=
  ⟨other, near, candidates, [], rfl, nearer, nofun⟩

/-- One more candidate. -/
theorem ChosenFrom.nearer {best : Option (String × Nat)}
    (chosen : ChosenFrom name threshold candidates best) (c : String) :
    ChosenFrom name threshold (candidates ++ [c]) (nearer name threshold best c) := by
  unfold Polyglot.nearer
  by_cases same : c = name
  · rw [if_pos same]
    cases best with
    | none =>
      intro d member
      rcases List.mem_append.1 member with listed | last
      · exact chosen d listed
      · exact .inl ((List.mem_singleton.1 last).trans same)
    | some best => exact ⟨chosen.1, chosen.2.append fun other => absurd same other⟩
  rw [if_neg same]
  cases best with
  | none =>
    by_cases near : editDistance name.toList c.toList ≤ threshold
    · simp only [near, Option.all_none, and_self, if_true]
      refine ⟨rfl, .last same near fun d listed other => ?_⟩
      have beyond := (chosen d listed).resolve_left other
      omega
    · simp only [near, false_and, if_false]
      intro d member
      rcases List.mem_append.1 member with listed | last
      · exact chosen d listed
      · rw [List.mem_singleton.1 last]
        exact .inr (Nat.lt_of_not_le near)
  | some best =>
    obtain ⟨found, d⟩ := best
    obtain ⟨rfl, chosen⟩ := chosen
    have within := chosen.near
    by_cases better : editDistance name.toList c.toList < editDistance name.toList found.toList
    · have near : editDistance name.toList c.toList ≤ threshold := by omega
      simp only [near, better, Option.all_some, decide_true, and_self, if_true]
      refine ⟨rfl, .last same near fun d listed other => ?_⟩
      have least := chosen.le d listed other
      omega
    · simp only [better, Option.all_some, decide_false, Bool.false_eq_true, and_false, if_false]
      exact ⟨rfl, chosen.append fun _ => Nat.le_of_not_lt better⟩

/-- All candidates in turn. -/
theorem ChosenFrom.foldl {best : Option (String × Nat)}
    (chosen : ChosenFrom name threshold candidates best) (more : List String) :
    ChosenFrom name threshold (candidates ++ more)
      (more.foldl (Polyglot.nearer name threshold) best) := by
  induction more generalizing candidates best with
  | nil => simpa using chosen
  | cons c more ih => simpa using ih (chosen.nearer c)

theorem similarName_cases (name : String) (candidates : List String) (threshold : Nat) :
    (similarName name candidates threshold = none ∧ AllFar name threshold candidates) ∨
      ∃ found, similarName name candidates threshold = some found ∧
        FirstNearest name threshold candidates found := by
  have begun : ChosenFrom name threshold [] none := nofun
  have chosen := begun.foldl candidates
  rw [similarName]
  rw [List.nil_append] at chosen
  cases best : candidates.foldl (nearer name threshold) none with
  | none =>
    rw [best] at chosen
    exact .inl ⟨rfl, chosen⟩
  | some pair =>
    rw [best] at chosen
    exact .inr ⟨pair.1, rfl, chosen.2⟩

end

/-- The distance, which two rows of its table suffice to find, is the least number of edits. So it
is a metric that lies between the difference of the lengths and the larger of them. Nothing is
suggested just if all other candidates are too far away, and otherwise the first of the nearest ones
is. -/
theorem nearest_suggested :
    (∀ a b, DistanceTable.distance a b = editDistance a b) ∧
    (∀ a b, IsLeast {n | Edits n a b} (editDistance a b)) ∧
    (∀ a b, editDistance a b = 0 ↔ a = b) ∧
    (∀ a b, editDistance a b = editDistance b a) ∧
    (∀ a b c, editDistance a c ≤ editDistance a b + editDistance b c) ∧
    (∀ a b, a.length - b.length ≤ editDistance a b ∧ b.length - a.length ≤ editDistance a b ∧
      editDistance a b ≤ max a.length b.length) ∧
    ∀ name candidates threshold,
      (similarName name candidates threshold = none ↔ AllFar name threshold candidates) ∧
      ∀ found, similarName name candidates threshold = some found →
        FirstNearest name threshold candidates found := by
  have attained (a b) : Edits (editDistance a b) a b := (isLeast_editDistance a b).1
  have least {a b n} (edits : Edits n a b) : editDistance a b ≤ n :=
    (isLeast_editDistance a b).2 edits
  refine ⟨DistanceTable.distance_eq, isLeast_editDistance, ?_, ?_, ?_, ?_, ?_⟩
  · intro a b
    constructor
    · intro zero
      exact (zero ▸ attained a b).eq_of_zero
    · rintro rfl
      exact Nat.le_zero.1 (least (.none a))
  · intro a b
    exact Nat.le_antisymm (least (attained b a).symm) (least (attained a b).symm)
  · intro a b c
    exact least ((attained a b).trans (attained b c))
  · intro a b
    have left := (attained a b).length_le
    have right := (attained a b).symm.length_le
    refine ⟨by omega, by omega, ?_⟩
    rw [editDistance_eq]
    simpa using distanceFrom_le_max a.reverse b.reverse
  · intro name candidates threshold
    rcases similarName_cases name candidates threshold with ⟨none, far⟩ | ⟨found, some, chosen⟩
    · rw [none]
      exact ⟨⟨fun _ => far, fun _ => rfl⟩, nofun⟩
    · rw [some]
      refine ⟨⟨nofun, fun far => absurd chosen far.not_firstNearest⟩, ?_⟩
      rintro _ ⟨⟩
      exact chosen

/-- Of two names at the same distance the one that comes first is suggested, and the name itself is
passed over. -/
theorem nearest_suggested_first :
    similarName "wile" ["wile", "with", "while", "wild"] 2 = some "while" ∧
    FirstNearest "wile" 2 ["wile", "with", "while", "wild"] "while" ∧
    IsLeast {n | Edits n "kitten".toList "sitting".toList} 3 := by
  obtain ⟨-, least, -, -, -, -, suggested⟩ := nearest_suggested
  have chosen : similarName "wile" ["wile", "with", "while", "wild"] 2 = some "while" := by
    decide
  exact ⟨chosen, (suggested _ _ _).2 _ chosen, least "kitten".toList "sitting".toList⟩

end Polyglot
