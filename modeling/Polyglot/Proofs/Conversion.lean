import Polyglot.Proofs.Equality
import Polyglot.Proofs.Rendering
import Polyglot.Proofs.Value.Growth

/-!
# Values and JSON

A value without cycles whose doubles are finite can be expressed in JSON, and making a value of its
JSON form gives one with the same scalars and the same names, in containers of its own. Conversely
the value made of JSON has that JSON as its form. Making a value leaves all containers as they were.
-/

namespace Polyglot

/-- The double is a finite number. -/
def Binary64.Finite (x : Float) : Prop :=
  ∃ d, decode x = .finite d

theorem Binary64.Finite.isNaN_eq_false {x : Float} (finite : Finite x) : x.isNaN = false := by
  rw [← Bool.not_eq_true]
  intro unreadable
  rw [Float.isNaN_eq_decide_eq_nan, decide_eq_true_eq] at unreadable
  obtain ⟨d, decoded⟩ := finite
  have special : decode Float.nan = .nan := by decide +kernel
  rw [unreadable, special] at decoded
  cases decoded

namespace OrderedMap

variable {α : Type} {l : List (String × α)}

/-! ## Sorting -/

theorem perm_sortEntries (distinct : (l.map Prod.fst).Nodup) : (sortEntries l).Perm l :=
  (@foldl_insertSorted α l [] distinct List.Pairwise.nil).1

theorem pairwise_sortEntries (distinct : (l.map Prod.fst).Nodup) :
    ((sortEntries l).map Prod.fst).Pairwise (· < ·) := by
  have sorted := (@foldl_insertSorted α l [] distinct List.Pairwise.nil).2
  have apart : ((sortEntries l).map Prod.fst).Nodup :=
    ((perm_sortEntries distinct).map Prod.fst).nodup_iff.2 distinct
  have both := (List.pairwise_map.2 sorted).and apart
  exact both.imp fun ⟨below, different⟩ => Std.lt_of_le_of_ne below different

/-- Entries in increasing order of their names are left in their order. -/
theorem sortEntries_of_pairwise (sorted : (l.map Prod.fst).Pairwise (· < ·)) :
    sortEntries l = l := by
  have distinct : (l.map Prod.fst).Nodup :=
    sorted.imp fun less => ne_of_apply_ne id (Std.ne_of_lt less)
  rw [sortEntries_eq_mergeSort distinct]
  apply List.mergeSort_of_pairwise
  refine (List.pairwise_map.1 sorted).imp fun less => ?_
  simpa using Std.le_of_lt less

end OrderedMap

/-! ## JSON values -/

namespace Json

mutual

/-- A JSON value that a value of a script can stand for: integers fit 64 bits, other numbers are
finite, and the fields of an object are in increasing order of their names. -/
def Representable : Json → Prop
  | null | bool _ | str _ => True
  | int n => FitsInt64 n
  | float x => Binary64.Finite x
  | arr items => AllRepresentable items
  | obj fields => (fields.map Prod.fst).Pairwise (· < ·) ∧ AllFieldsRepresentable fields

/-- All items are such values. -/
def AllRepresentable : List Json → Prop
  | [] => True
  | j :: js => j.Representable ∧ AllRepresentable js

/-- All fields are such values. -/
def AllFieldsRepresentable : List (String × Json) → Prop
  | [] => True
  | (_, j) :: fs => j.Representable ∧ AllFieldsRepresentable fs

end

theorem allRepresentable_iff {js : List Json} :
    AllRepresentable js ↔ ∀ j ∈ js, j.Representable := by
  induction js with
  | nil => simp [AllRepresentable]
  | cons j js ih => simp [AllRepresentable, ih]

theorem allFieldsRepresentable_iff {fs : List (String × Json)} :
    AllFieldsRepresentable fs ↔ ∀ f ∈ fs, f.2.Representable := by
  induction fs with
  | nil => simp [AllFieldsRepresentable]
  | cons f fs ih => simp [AllFieldsRepresentable, ih]

end Json

namespace Heap

variable {h h' : Heap} {v w : Value} {id : Nat}

/-! ## The JSON form of a container -/

theorem rendersPlainly_toJson (distinct : h.Distinct) (acyclic : h.Acyclic v) :
    h.RendersPlainly .json v (h.toJson v) :=
  (rendersPlainly_iff Tree.follows_toJson distinct acyclic).2 rfl

theorem RendersPlainly.toJson_eq {j : Json} (plain : h.RendersPlainly .json v j)
    (distinct : h.Distinct) : h.toJson v = j :=
  (rendersPlainly_iff Tree.follows_toJson distinct plain.acyclic).1 plain

theorem toJson_list (distinct : h.Distinct) (acyclic : h.Acyclic (.list id)) :
    h.toJson (.list id) = .arr ((h.items id).toList.map h.toJson) := by
  have plain := RendersPlainly.list h.toJson fun v member =>
    rendersPlainly_toJson distinct (acyclic.part (.item member))
  exact plain.toJson_eq distinct

theorem Distinct.nodup_map {α : Type} (distinct : h.Distinct) (id : Nat) (f : Value → α) :
    (((h.entries id).entries.map fun e => (e.1, f e.2)).map Prod.fst).Nodup := by
  simpa [Function.comp_def, OrderedMap.Distinct, OrderedMap.keys] using distinct id

theorem toJson_map (distinct : h.Distinct) (acyclic : h.Acyclic (.map id)) :
    h.toJson (.map id) =
      .obj (OrderedMap.sortEntries ((h.entries id).entries.map fun e => (e.1, h.toJson e.2))) := by
  have plain := RendersPlainly.map h.toJson fun e member =>
    rendersPlainly_toJson distinct (acyclic.part (.value member))
  rw [OrderedMap.sortEntries_eq_mergeSort (distinct.nodup_map id h.toJson)]
  exact plain.toJson_eq distinct

/-! ## Values that JSON can express -/

/-- No container on the way down holds itself, and every double there is finite. -/
structure Expressible (h : Heap) (v : Value) : Prop where
  acyclic : h.Acyclic v
  finite : ∀ x, Relation.ReflTransGen h.Part v (.float x) → Binary64.Finite x

theorem Expressible.part (expressible : h.Expressible v) (part : h.Part v w) : h.Expressible w :=
  ⟨expressible.acyclic.part part, fun x reached => expressible.finite x (.head part reached)⟩

theorem expressible_of_parts (number : ∀ x, v = .float x → Binary64.Finite x)
    (parts : ∀ w, h.Part v w → h.Expressible w) : h.Expressible v := by
  refine ⟨acyclic_of_parts fun w part => (parts w part).acyclic, ?_⟩
  intro x reached
  rcases reached.cases_head with same | ⟨u, part, rest⟩
  · exact number x same
  · exact (parts u part).finite x rest

theorem expressible_of_scalar (scalar : v.isContainer = false)
    (number : ∀ x, v = .float x → Binary64.Finite x) : h.Expressible v := by
  refine expressible_of_parts number fun w part => ?_
  cases part <;> cases scalar

theorem toJson_float {x : Float} (finite : Binary64.Finite x) : h.toJson (.float x) = .float x := by
  obtain ⟨d, decoded⟩ := finite
  show (Tree.float x).toJson = _
  rw [Tree.toJson, decoded]

/-- A value and its JSON form, where the parts of a container have their own forms. -/
inductive Shows (h : Heap) : Value → Json → Prop
  | null : Shows h .null .null
  | bool (b : Bool) : Shows h (.bool b) (.bool b)
  | int {n i} (same : n.toInt = i) : Shows h (.int n) (.int i)
  | float {x} (finite : Binary64.Finite x) : Shows h (.float x) (.float x)
  | text (s : String) : Shows h (.text s) (.str s)
  | list {id js} (same : (h.items id).toList.map h.toJson = js) : Shows h (.list id) (.arr js)
  | map {id fs}
    (same : OrderedMap.sortEntries ((h.entries id).entries.map fun e => (e.1, h.toJson e.2)) = fs) :
    Shows h (.map id) (.obj fs)

theorem Expressible.shows (expressible : h.Expressible v) (distinct : h.Distinct) :
    h.Shows v (h.toJson v) := by
  cases v with
  | null => exact .null
  | bool b => exact .bool b
  | int n => exact .int rfl
  | float x =>
    have finite := expressible.finite x .refl
    rw [toJson_float finite]
    exact .float finite
  | text s => exact .text s
  | list id =>
    rw [toJson_list distinct expressible.acyclic]
    exact .list rfl
  | map id =>
    rw [toJson_map distinct expressible.acyclic]
    exact .map rfl

/-- What can be expressed in JSON is expressed by what a value can stand for. -/
theorem Expressible.representable (expressible : h.Expressible v) (distinct : h.Distinct) :
    (h.toJson v).Representable := by
  have plain := rendersPlainly_toJson distinct expressible.acyclic
  generalize h.toJson v = j at plain
  induction plain with
  | null => trivial
  | bool b => trivial
  | text s => trivial
  | int n => exact fitsInt64_toInt n
  | float x =>
    obtain ⟨d, decoded⟩ := expressible.finite x .refl
    simp only [Rendering.json, decoded]
    exact ⟨d, decoded⟩
  | list f each ih =>
    refine Json.allRepresentable_iff.2 fun j member => ?_
    obtain ⟨v, there, rfl⟩ := List.mem_map.1 member
    exact ih v there (expressible.part (.item there))
  | @map id f each ih =>
    have names := distinct.nodup_map id f
    simp only [Rendering.json, ← OrderedMap.sortEntries_eq_mergeSort names]
    refine ⟨OrderedMap.pairwise_sortEntries names, Json.allFieldsRepresentable_iff.2 ?_⟩
    intro field member
    obtain ⟨e, there, rfl⟩ := List.mem_map.1 ((OrderedMap.perm_sortEntries names).mem_iff.1 member)
    exact ih e there (expressible.part (.value there))

/-! ## Adding containers -/

/-- Every container of the first heap is in the second, with what it held. -/
structure Extends (h h' : Heap) : Prop where
  lists : h.lists.size ≤ h'.lists.size
  maps : h.maps.size ≤ h'.maps.size
  items : ∀ id < h.lists.size, h'.items id = h.items id
  entries : ∀ id < h.maps.size, h'.entries id = h.entries id

namespace Extends

theorem refl (h : Heap) : h.Extends h :=
  ⟨Nat.le_refl _, Nat.le_refl _, fun _ _ => rfl, fun _ _ => rfl⟩

theorem trans {h₁ h₂ h₃ : Heap} (first : h₁.Extends h₂) (second : h₂.Extends h₃) :
    h₁.Extends h₃ where
  lists := first.lists.trans second.lists
  maps := first.maps.trans second.maps
  items id there := by
    rw [second.items id (there.trans_le first.lists), first.items id there]
  entries id there := by
    rw [second.entries id (there.trans_le first.maps), first.entries id there]

theorem newList (h : Heap) (items : Array Value) : h.Extends (h.newList items).2 where
  lists := by simp [Heap.newList]
  maps := Nat.le_refl _
  items id there := by rw [items_newList, if_neg (Nat.ne_of_lt there)]
  entries _ _ := rfl

theorem newMap (h : Heap) (entries : OrderedMap Value) : h.Extends (h.newMap entries).2 where
  lists := Nat.le_refl _
  maps := by simp [Heap.newMap]
  items _ _ := rfl
  entries id there := by rw [entries_newMap, if_neg (Nat.ne_of_lt there)]

theorem known (added : h.Extends h') (known : h.Known v) : h'.Known v := by
  cases v with
  | list id => exact Nat.lt_of_lt_of_le known added.lists
  | map id => exact Nat.lt_of_lt_of_le known added.maps
  | _ => trivial

theorem part (added : h.Extends h') (known : h.Known v) (part : h'.Part v w) : h.Part v w := by
  cases part with
  | item member =>
    rw [added.items _ known] at member
    exact .item member
  | value member =>
    rw [added.entries _ known] at member
    exact .value member

/-- A value is rendered as before. -/
theorem rendersPlainly {α : Type} {R : Rendering α} {a : α} (added : h.Extends h')
    (closed : h.Closed) (plain : h.RendersPlainly R v a) (known : h.Known v) :
    h'.RendersPlainly R v a := by
  induction plain with
  | null => exact .null
  | bool b => exact .bool b
  | int n => exact .int n
  | float x => exact .float x
  | text s => exact .text s
  | list f each ih =>
    have same := added.items _ known
    rw [← same]
    refine .list f fun v member => ?_
    rw [same] at member
    exact ih v member (closed.part (.item member))
  | map f each ih =>
    have same := added.entries _ known
    rw [← same]
    refine .map f fun e member => ?_
    rw [same] at member
    exact ih e member (closed.part (.value member))

theorem reaches (added : h.Extends h') (closed : h.Closed) (known : h.Known v)
    (reached : Relation.ReflTransGen h'.Part v w) : Relation.ReflTransGen h.Part v w := by
  induction reached using Relation.ReflTransGen.head_induction_on with
  | refl => exact .refl
  | head part _ ih =>
    have before := added.part known part
    exact .head before (ih (closed.part before))

end Extends

/-- A value that is there and that JSON can express. -/
structure Present (h : Heap) (v : Value) : Prop where
  known : h.Known v
  expressible : h.Expressible v

/-- What is there stays there, with the same JSON form. -/
theorem Present.extends (present : h.Present v) (closed : h.Closed) (added : h.Extends h')
    (distinct : h'.Distinct) : h'.Present v ∧ h'.toJson v = h.toJson v := by
  have plain := added.rendersPlainly closed
    (rendersPlainly_toJson closed.distinct present.expressible.acyclic) present.known
  have finite : ∀ x, Relation.ReflTransGen h'.Part v (.float x) → Binary64.Finite x :=
    fun x reached => present.expressible.finite x (added.reaches closed present.known reached)
  exact ⟨⟨added.known present.known, ⟨plain.acyclic, finite⟩⟩, plain.toJson_eq distinct⟩

/-! ## Making values of JSON -/

theorem present_of_scalar (scalar : v.isContainer = false)
    (number : ∀ x, v = .float x → Binary64.Finite x) : h.Present v :=
  ⟨known_of_scalar scalar, expressible_of_scalar scalar number⟩

/-- The form of a new list is the list of the forms of its items. -/
theorem present_newList (closed : h.Closed) {vs : List Value} (all : ∀ v ∈ vs, h.Present v) :
    (h.newList vs.toArray).2.Closed ∧ (h.newList vs.toArray).2.Present (.list h.lists.size) ∧
      (h.newList vs.toArray).2.toJson (.list h.lists.size) = .arr (vs.map h.toJson) := by
  have known : h.KnownAll vs.toArray := fun v member => (all v (by simpa using member)).known
  have closed' := closed.newList known
  have items : ((h.newList vs.toArray).2.items h.lists.size).toList = vs := by
    simp [items_newList]
  have all' : ∀ v ∈ vs, (h.newList vs.toArray).2.Present v ∧
      (h.newList vs.toArray).2.toJson v = h.toJson v :=
    fun v member => (all v member).extends closed (.newList h _) closed'.distinct
  have expressible : (h.newList vs.toArray).2.Expressible (.list h.lists.size) := by
    refine expressible_of_parts (by simp) fun w part => ?_
    cases part with
    | item member => exact (all' w (items ▸ member)).1.expressible
  refine ⟨closed', ⟨by simp [newList, Known], expressible⟩, ?_⟩
  rw [toJson_list closed'.distinct expressible.acyclic, items,
    List.map_congr_left fun v member => (all' v member).2]

/-- The form of a new map of sorted entries is the object of the forms of its values. -/
theorem present_newMap (closed : h.Closed) {es : List (String × Value)}
    (sorted : (es.map Prod.fst).Pairwise (· < ·)) (all : ∀ e ∈ es, h.Present e.2) :
    (h.newMap ⟨es⟩).2.Closed ∧ (h.newMap ⟨es⟩).2.Present (.map h.maps.size) ∧
      (h.newMap ⟨es⟩).2.toJson (.map h.maps.size) =
        .obj (es.map fun e => (e.1, h.toJson e.2)) := by
  have distinct : OrderedMap.Distinct ⟨es⟩ := sorted.imp fun less => Std.ne_of_lt less
  have closed' := closed.newMap distinct fun e member => (all e member).known
  have entries : ((h.newMap ⟨es⟩).2.entries h.maps.size).entries = es := by
    simp [entries_newMap]
  have all' : ∀ e ∈ es, (h.newMap ⟨es⟩).2.Present e.2 ∧
      (h.newMap ⟨es⟩).2.toJson e.2 = h.toJson e.2 :=
    fun e member => (all e member).extends closed (.newMap h _) closed'.distinct
  have expressible : (h.newMap ⟨es⟩).2.Expressible (.map h.maps.size) := by
    refine expressible_of_parts (by simp) fun w part => ?_
    cases part with
    | @value _ e member => exact (all' e (entries ▸ member)).1.expressible
  have fields : es.map (fun e => (e.1, (h.newMap ⟨es⟩).2.toJson e.2)) =
      es.map fun e => (e.1, h.toJson e.2) :=
    List.map_congr_left fun e member => by rw [(all' e member).2]
  refine ⟨closed', ⟨by simp [newMap, Known], expressible⟩, ?_⟩
  rw [toJson_map closed'.distinct expressible.acyclic, entries, fields,
    OrderedMap.sortEntries_of_pairwise (by simpa [Function.comp_def] using sorted)]

/-- Making something leaves a closed heap with all the containers there were. -/
structure Makes {α : Type} (h : Heap) (made : α × Heap) (property : Heap → α → Prop) : Prop where
  added : h.Extends made.2
  closed : made.2.Closed
  holds : property made.2 made.1

/-- A value is there and has the given JSON form. -/
def Holds (j : Json) (h : Heap) (v : Value) : Prop :=
  h.Present v ∧ h.toJson v = j

theorem makes_scalar {j : Json} (closed : h.Closed) (scalar : v.isContainer = false)
    (number : ∀ x, v = .float x → Binary64.Finite x) (form : h.toJson v = j) :
    h.Makes (v, h) (Holds j) :=
  ⟨.refl h, closed, present_of_scalar scalar number, form⟩

end Heap

namespace Value

open Heap

mutual

/-- The value made of JSON is there and has that JSON as its form. -/
theorem makes_ofJson : ∀ (j : Json), j.Representable → ∀ h : Heap, h.Closed →
    h.Makes ((ofJson j).run h) (Holds j)
  | .null, _, h, closed => by
    rw [ofJson]
    exact makes_scalar closed rfl (by simp) rfl
  | .bool b, _, h, closed => by
    rw [ofJson]
    exact makes_scalar closed rfl (by simp) rfl
  | .str s, _, h, closed => by
    rw [ofJson]
    exact makes_scalar closed rfl (by simp) rfl
  | .float x, finite, h, closed => by
    rw [ofJson]
    refine makes_scalar closed rfl ?_ (toJson_float finite)
    rintro _ ⟨⟩
    exact finite
  | .int n, fits, h, closed => by
    rw [ofJson, ofInteger, if_pos (show FitsInt64 n from fits)]
    exact makes_scalar closed rfl (by simp) (congrArg Json.int (FitsInt64.toInt_ofInt fits))
  | .arr items, representable, h, closed => by
    obtain ⟨added, closed', all, forms⟩ := makes_ofJsonItems items representable h closed
    obtain ⟨closed'', present, form⟩ := present_newList closed' all
    rw [forms] at form
    rw [ofJson]
    exact ⟨added.trans (.newList _ _), closed'', present, form⟩
  | .obj fields, ⟨sorted, representable⟩, h, closed => by
    obtain ⟨added, closed', all, forms⟩ := makes_ofJsonFields fields representable h closed
    have names : (((ofJsonFields fields).run h).1.map Prod.fst).Pairwise (· < ·) := by
      rw [← forms] at sorted
      simpa [Function.comp_def] using sorted
    obtain ⟨closed'', present, form⟩ := present_newMap closed' names all
    rw [forms] at form
    have same := OrderedMap.sortEntries_of_pairwise names
    rw [← same] at closed'' present form
    rw [ofJson]
    exact ⟨added.trans (.newMap _ _), closed'', present, form⟩

theorem makes_ofJsonItems : ∀ (js : List Json), Json.AllRepresentable js → ∀ h : Heap, h.Closed →
    h.Makes ((ofJsonItems js).run h) fun h' vs =>
      (∀ v ∈ vs, h'.Present v) ∧ vs.map h'.toJson = js
  | [], _, h, closed => ⟨.refl h, closed, List.forall_mem_nil _, rfl⟩
  | j :: js, ⟨first, rest⟩, h, closed => by
    obtain ⟨added, closed', present, form⟩ := makes_ofJson j first h closed
    obtain ⟨added', closed'', all, forms⟩ := makes_ofJsonItems js rest _ closed'
    obtain ⟨stays, kept⟩ := present.extends closed' added' closed''.distinct
    rw [ofJsonItems]
    refine ⟨added.trans added', closed'', List.forall_mem_cons.2 ⟨stays, all⟩, ?_⟩
    exact List.cons_eq_cons.2 ⟨kept.trans form, forms⟩

theorem makes_ofJsonFields : ∀ (fs : List (String × Json)), Json.AllFieldsRepresentable fs →
    ∀ h : Heap, h.Closed → h.Makes ((ofJsonFields fs).run h) fun h' es =>
      (∀ e ∈ es, h'.Present e.2) ∧ es.map (fun e => (e.1, h'.toJson e.2)) = fs
  | [], _, h, closed => ⟨.refl h, closed, List.forall_mem_nil _, rfl⟩
  | (name, j) :: fs, ⟨first, rest⟩, h, closed => by
    obtain ⟨added, closed', present, form⟩ := makes_ofJson j first h closed
    obtain ⟨added', closed'', all, forms⟩ := makes_ofJsonFields fs rest _ closed'
    obtain ⟨stays, kept⟩ := present.extends closed' added' closed''.distinct
    rw [ofJsonFields]
    refine ⟨added.trans added', closed'', List.forall_mem_cons.2 ⟨stays, all⟩, ?_⟩
    exact List.cons_eq_cons.2 ⟨Prod.ext rfl (kept.trans form), forms⟩

end

end Value

namespace Heap

variable {h : Heap} {v w : Value} {R : Value → Value → Prop}

/-! ## The same contents -/

/-- Two values are the very same scalar, or containers of the same kind whose parts are related:
lists place by place, maps of the same names name by name. -/
inductive SameContents (h : Heap) (R : Value → Value → Prop) : Value → Value → Prop
  | scalar {v : Value} (scalar : v.isContainer = false) : SameContents h R v v
  | lists {a b} (items : List.Forall₂ R (h.items a).toList (h.items b).toList) :
    SameContents h R (.list a) (.list b)
  | maps {a b} (names : ∀ name, name ∈ (h.entries a).keys ↔ name ∈ (h.entries b).keys)
    (values : ∀ name v w, (h.entries a).get? name = some v → (h.entries b).get? name = some w →
      R v w) :
    SameContents h R (.map a) (.map b)

theorem SameContents.alike (same : h.SameContents R v w)
    (number : ∀ x, v = .float x → x.isNaN = false) : h.Alike R v w := by
  cases same with
  | lists items => exact .lists items
  | maps names values => exact .maps names values
  | scalar scalar =>
    cases v with
    | null => exact .null
    | bool b => exact .bool b
    | text s => exact .text s
    | int n => exact .numbers rfl rfl (Binary64.beq_self_iff.2 (Binary64.isNaN_ofInt n.toInt))
    | float x => exact .numbers rfl rfl (Binary64.beq_self_iff.2 (number x rfl))
    | list | map => cases scalar

/-- Two values that JSON can express have the same form. -/
structure SameForm (h : Heap) (v w : Value) : Prop where
  left : h.Expressible v
  right : h.Expressible w
  toJson : h.toJson v = h.toJson w

theorem forall₂_sameForm {vs ws : List Value} (left : ∀ v ∈ vs, h.Expressible v)
    (right : ∀ w ∈ ws, h.Expressible w) (forms : vs.map h.toJson = ws.map h.toJson) :
    List.Forall₂ h.SameForm vs ws := by
  induction vs generalizing ws with
  | nil =>
    rw [List.map_nil, eq_comm, List.map_eq_nil_iff] at forms
    subst forms
    exact .nil
  | cons v vs ih =>
    obtain ⟨w, ws, rfl, form, rest⟩ := List.map_eq_cons_iff.1 forms.symm
    obtain ⟨leftHere, leftRest⟩ := List.forall_mem_cons.1 left
    obtain ⟨rightHere, rightRest⟩ := List.forall_mem_cons.1 right
    exact .cons ⟨leftHere, rightHere, form.symm⟩ (ih leftRest rightRest rest.symm)

/-- Values of the same form have the same contents. -/
theorem SameForm.sameContents (same : h.SameForm v w) (distinct : h.Distinct) :
    h.SameContents h.SameForm v w := by
  obtain ⟨left, right, form⟩ := same
  have shows := left.shows distinct
  have shows' := right.shows distinct
  rw [← form] at shows'
  generalize h.toJson v = j at shows shows'
  cases shows with
  | null => cases shows'; exact .scalar rfl
  | bool b => cases shows'; exact .scalar rfl
  | float finite => cases shows'; exact .scalar rfl
  | text s => cases shows'; exact .scalar rfl
  | int same =>
    cases shows' with
    | int same' =>
      rw [Int64.toInt_inj.1 (same.trans same'.symm)]
      exact .scalar rfl
  | list same =>
    cases shows' with
    | list same' =>
      exact .lists (forall₂_sameForm (fun v member => left.part (.item member))
        (fun w member => right.part (.item member)) (same.trans same'.symm))
  | @map a fs same =>
    cases shows' with
    | @map b _ same' =>
      have entries := (OrderedMap.perm_sortEntries (distinct.nodup_map a h.toJson)).symm.trans
        ((same.trans same'.symm) ▸ OrderedMap.perm_sortEntries (distinct.nodup_map b h.toJson))
      refine .maps (fun name => ?_) fun name v w found found' => ?_
      · have names := entries.map Prod.fst
        simp only [List.map_map, Function.comp_def] at names
        exact names.mem_iff
      · have there := OrderedMap.mem_of_find? found
        have member := entries.mem_iff.1 (List.mem_map_of_mem there)
        obtain ⟨e, there', equal⟩ := List.mem_map.1 member
        obtain ⟨rfl, form⟩ := Prod.mk.inj equal
        have found'' := OrderedMap.find?_of_mem (distinct b) there'
        rw [show OrderedMap.find? e.1 (h.entries b).entries = some w from found'] at found''
        obtain rfl := Option.some.inj found''
        exact ⟨left.part (.value there), right.part (.value there'), form.symm⟩

theorem SameForm.equal (same : h.SameForm v w) (distinct : h.Distinct) : h.equal v w = true := by
  refine (equal_iff_bisimilar distinct).2 ⟨h.SameForm, same, fun a b related => ?_⟩
  refine (related.sameContents distinct).alike fun x number => ?_
  subst number
  exact (related.left.finite x .refl).isNaN_eq_false

/-! ## There and back -/

/-- Making a value of the JSON form of a value that can be expressed leaves that value as it was and
gives one equal to it, with the very same scalars, of the same types, in the same places and under
the same names. And the value made of JSON whose integers fit 64 bits and whose other numbers are
finite has that JSON as its form. -/
theorem json_conversion_faithful (h : Heap) (closed : h.Closed) :
    (∀ v, h.Known v → h.Expressible v → ∀ w h', (Value.ofJson (h.toJson v)).run h = (w, h') →
      h.Extends h' ∧ h'.equal v w = true ∧
      ∃ R : Value → Value → Prop, R v w ∧ ∀ a b, R a b → h'.SameContents R a b) ∧
    ∀ j : Json, j.Representable → ∀ w h', (Value.ofJson j).run h = (w, h') → h'.toJson w = j := by
  constructor
  · intro v known expressible w h' made
    have makes := Value.makes_ofJson (h.toJson v) (expressible.representable closed.distinct) h
      closed
    rw [made] at makes
    obtain ⟨added, closed', present, form⟩ := makes
    obtain ⟨stays, kept⟩ :=
      (Present.mk known expressible).extends closed added closed'.distinct
    have same : h'.SameForm v w := ⟨stays.expressible, present.expressible, kept.trans form.symm⟩
    exact ⟨added, same.equal closed'.distinct, h'.SameForm, same,
      fun a b related => related.sameContents closed'.distinct⟩
  · intro j representable w h' made
    have makes := Value.makes_ofJson j representable h closed
    rw [made] at makes
    exact makes.holds.2

/-- A map whose names are not in order and whose first two values are one list. -/
def crossed : Heap where
  lists := #[#[.int Int64.minValue, .float (-0.0)]]
  maps := #[⟨[("z", .list 0), ("a", .list 0), ("one", .float 1.0), ("eins", .int 1)]⟩]

/-- The JSON form of that list. -/
def crossedItems : Json :=
  .arr [.int (-9223372036854775808), .float (-0.0)]

/-- The JSON form of that map. -/
def crossedJson : Json :=
  .obj [("a", crossedItems), ("eins", .int 1), ("one", .float 1.0), ("z", crossedItems)]

theorem closed_crossed : crossed.Closed where
  items id := by
    rcases id with _ | id
    · simp [crossed, items, KnownAll, Known]
    · simp [crossed, items]
  values id := by
    rcases id with _ | id
    · simp [crossed, entries, Known]
    · simp [crossed, entries]
  distinct id := by
    rcases id with _ | id
    · exact show List.Nodup _ by decide
    · exact List.nodup_nil

theorem finite_negZero : Binary64.Finite (-0.0) :=
  ⟨⟨true, 0, -1074⟩, by decide +kernel⟩

theorem finite_one : Binary64.Finite 1.0 :=
  ⟨⟨false, 4503599627370496, -52⟩, by decide +kernel⟩

theorem expressible_crossed_list : crossed.Expressible (.list 0) := by
  refine expressible_of_parts (by simp) fun w part => ?_
  cases part with
  | item member =>
    have either : w ∈ [Value.int Int64.minValue, .float (-0.0)] := member
    rcases List.mem_pair.1 either with rfl | rfl
    · exact expressible_of_scalar rfl (by simp)
    · exact expressible_of_scalar rfl fun x same => Value.float.inj same ▸ finite_negZero

theorem expressible_crossed : crossed.Expressible (.map 0) := by
  refine expressible_of_parts (by simp) fun w part => ?_
  cases part with
  | @value _ e member =>
    have either : e ∈ [("z", Value.list 0), ("a", .list 0), ("one", .float 1.0),
      ("eins", .int 1)] := member
    simp only [List.mem_cons, List.not_mem_nil, or_false] at either
    rcases either with rfl | rfl | rfl | rfl
    · exact expressible_crossed_list
    · exact expressible_crossed_list
    · exact expressible_of_scalar rfl fun x same => Value.float.inj same ▸ finite_one
    · exact expressible_of_scalar rfl (by simp)

theorem toJson_crossed : crossed.toJson (.map 0) = crossedJson := by
  have shared : crossed.toJson (.list 0) = crossedItems := by
    rw [toJson_list closed_crossed.distinct expressible_crossed_list.acyclic]
    show Json.arr [.int _, crossed.toJson (.float (-0.0))] = _
    rw [toJson_float finite_negZero]
    rfl
  rw [toJson_map closed_crossed.distinct expressible_crossed.acyclic]
  show Json.obj (OrderedMap.sortEntries [("z", crossed.toJson (.list 0)),
    ("a", crossed.toJson (.list 0)), ("one", crossed.toJson (.float 1.0)), ("eins", .int 1)]) = _
  rw [shared, toJson_float finite_one]
  rfl

/-- Such a map is expressed with its names in order, its list twice and its numbers as they are;
made of that, it is equal to itself. -/
theorem json_conversion_faithful_crossed :
    crossed.Closed ∧ crossed.Known (.map 0) ∧ crossed.Expressible (.map 0) ∧
    crossed.toJson (.map 0) = crossedJson ∧ crossedJson.Representable ∧
    ∃ w h', (Value.ofJson crossedJson).run crossed = (w, h') ∧ h'.equal (.map 0) w = true ∧
      h'.toJson w = crossedJson := by
  have known : crossed.Known (.map 0) := by simp [crossed, Known]
  have representable := expressible_crossed.representable closed_crossed.distinct
  rw [toJson_crossed] at representable
  obtain ⟨there, back⟩ := json_conversion_faithful crossed closed_crossed
  rcases made : (Value.ofJson crossedJson).run crossed with ⟨w, h'⟩
  obtain ⟨-, equal, -⟩ := there (.map 0) known expressible_crossed w h' (toJson_crossed ▸ made)
  exact ⟨closed_crossed, known, expressible_crossed, toJson_crossed, representable, w, h', rfl,
    equal, back crossedJson representable w h' made⟩

end Heap

end Polyglot
