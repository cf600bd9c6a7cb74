import Mathlib.Logic.Relation
import Polyglot.Proofs.Value.Containers
import Polyglot.Value.Tree

/-!
# Rendering values

The text of a value and its JSON form are made from the inside out: what becomes of a container is
made from what became of its parts. Going down, a container that is already open is not gone into
again but marked. The rules below say so without any bound; a derivation is finite, so rendering
comes to an end whatever the containers hold. Where no container holds itself, however deep, nothing
is ever marked, and rendering is plain recursion over the parts, shared or not.
-/

namespace Polyglot

variable {α : Type}

/-! ## Renderings -/

/-- What becomes of each kind of value. -/
structure Rendering (α : Type) where
  null : α
  bool : Bool → α
  int : Int64 → α
  float : Float → α
  text : String → α
  /-- A list, from what became of its items. -/
  list : List α → α
  /-- A map, from its names and what became of the values under them. -/
  map : List (String × α) → α
  /-- A list inside itself. -/
  cutList : α
  /-- A map inside itself. -/
  cutMap : α

namespace Rendering

/-- Texts. -/
def display : Rendering String where
  null := "null"
  bool b := if b then "true" else "false"
  int n := toString n.toInt
  float := Decimal.text
  text s := s
  list items := "[" ++ ", ".intercalate items ++ "]"
  map entries := "\x7b" ++ ", ".intercalate (entries.map fun e => e.1 ++ "=" ++ e.2) ++ "\x7d"
  cutList := "(this Collection)"
  cutMap := "(this Map)"

/-- JSON values. Fields are in the order of their names. -/
def json : Rendering Json where
  null := .null
  bool := .bool
  int n := .int n.toInt
  float x :=
    match Binary64.decode x with
    | .finite _ => .float x
    | _ => .null
  text := .str
  list := .arr
  map fields := .obj (fields.mergeSort fun a b => decide (a.1 ≤ b.1))
  cutList := .null
  cutMap := .null

/-- The trees themselves. -/
def tree : Rendering Tree where
  null := .null
  bool := .bool
  int := .int
  float := .float
  text := .text
  list := .list
  map := .map
  cutList := .cutList
  cutMap := .cutMap

/-- A function of trees makes what it gives for a container from what it gives for the parts. -/
structure Follows (R : Rendering α) (f : Tree → α) : Prop where
  null : f .null = R.null
  bool : ∀ b, f (.bool b) = R.bool b
  int : ∀ n, f (.int n) = R.int n
  float : ∀ x, f (.float x) = R.float x
  text : ∀ s, f (.text s) = R.text s
  list : ∀ ts, f (.list ts) = R.list (ts.map f)
  map : ∀ es, (es.map Prod.fst).Nodup → f (.map es) = R.map (es.map fun e => (e.1, f e.2))
  cutList : f .cutList = R.cutList
  cutMap : f .cutMap = R.cutMap

end Rendering

namespace Tree

theorem displayItems_cons (separator : String) (t : Tree) (ts : List Tree) :
    displayItems separator (t :: ts) =
      separator ++ ", ".intercalate ((t :: ts).map display) := by
  induction ts generalizing separator t with
  | nil => simp [displayItems]
  | cons u us ih =>
    rw [displayItems, ih ", " u]
    simp [String.append_assoc]

theorem display_list (ts : List Tree) :
    (list ts).display = "[" ++ ", ".intercalate (ts.map display) ++ "]" := by
  cases ts with
  | nil => simp [display, displayItems]
  | cons t ts => simp only [display, displayItems_cons, String.empty_append]

theorem displayEntries_cons (separator : String) (e : String × Tree) (es : List (String × Tree)) :
    displayEntries separator (e :: es) =
      separator ++ ", ".intercalate ((e :: es).map fun e => e.1 ++ "=" ++ e.2.display) := by
  induction es generalizing separator e with
  | nil => simp [displayEntries, String.append_assoc]
  | cons u us ih =>
    rw [displayEntries, ih ", " u]
    simp [String.append_assoc]

theorem display_map (es : List (String × Tree)) :
    (map es).display =
      "\x7b" ++ ", ".intercalate (es.map fun e => e.1 ++ "=" ++ e.2.display) ++ "\x7d" := by
  cases es with
  | nil => simp [display, displayEntries]
  | cons e es => simp only [display, displayEntries_cons, String.empty_append]

theorem toJsonItems_eq_map (ts : List Tree) : toJsonItems ts = ts.map toJson := by
  induction ts with
  | nil => rfl
  | cons t ts ih => rw [toJsonItems, ih, List.map_cons]

theorem toJsonEntries_eq_map (es : List (String × Tree)) :
    toJsonEntries es = es.map fun e => (e.1, e.2.toJson) := by
  induction es with
  | nil => rfl
  | cons e es ih => rw [toJsonEntries, ih, List.map_cons]

/-- Texts of trees are made from the inside out. -/
theorem follows_display : Rendering.display.Follows display where
  null := rfl
  bool _ := rfl
  int _ := rfl
  float _ := rfl
  text _ := rfl
  list := display_list
  map es _ := by
    rw [display_map]
    simp [Rendering.display, Function.comp_def]
  cutList := rfl
  cutMap := rfl

/-- And so are JSON forms. -/
theorem follows_toJson : Rendering.json.Follows toJson where
  null := rfl
  bool _ := rfl
  int _ := rfl
  float _ := rfl
  text _ := rfl
  list ts := by rw [toJson, toJsonItems_eq_map]; rfl
  map es distinct := by
    have fields : ((es.map fun e => (e.1, e.2.toJson)).map Prod.fst).Nodup := by
      simpa [Function.comp_def] using distinct
    rw [toJson, toJsonEntries_eq_map, OrderedMap.sortEntries_eq_mergeSort fields]
    rfl
  cutList := rfl
  cutMap := rfl

/-- Some container is cut off in a tree. -/
inductive HasCut : Tree → Prop
  | list : HasCut .cutList
  | map : HasCut .cutMap
  | item {ts t} (member : t ∈ ts) (inner : HasCut t) : HasCut (.list ts)
  | value {es e} (member : e ∈ es) (inner : HasCut e.2) : HasCut (.map es)

end Tree

namespace Heap

/-- A value below the open containers `path` is rendered. What becomes of the parts of a container
is given by `f`. -/
inductive Renders (R : Rendering α) (h : Heap) : List Ref → Value → α → Prop
  | null (path) : Renders R h path .null R.null
  | bool (path) (b : Bool) : Renders R h path (.bool b) (R.bool b)
  | int (path) (n : Int64) : Renders R h path (.int n) (R.int n)
  | float (path) (x : Float) : Renders R h path (.float x) (R.float x)
  | text (path) (s : String) : Renders R h path (.text s) (R.text s)
  | list {path id} (new : .list id ∉ path) (f : Value → α)
    (each : ∀ v ∈ (h.items id).toList, Renders R h (.list id :: path) v (f v)) :
    Renders R h path (.list id) (R.list ((h.items id).toList.map f))
  | map {path id} (new : .map id ∉ path) (f : Value → α)
    (each : ∀ e ∈ (h.entries id).entries, Renders R h (.map id :: path) e.2 (f e.2)) :
    Renders R h path (.map id) (R.map ((h.entries id).entries.map fun e => (e.1, f e.2)))
  | cutList {path id} (again : .list id ∈ path) : Renders R h path (.list id) R.cutList
  | cutMap {path id} (again : .map id ∈ path) : Renders R h path (.map id) R.cutMap

/-- A value is rendered by recursion over its parts, with no regard to what is open. -/
inductive RendersPlainly (R : Rendering α) (h : Heap) : Value → α → Prop
  | null : RendersPlainly R h .null R.null
  | bool (b : Bool) : RendersPlainly R h (.bool b) (R.bool b)
  | int (n : Int64) : RendersPlainly R h (.int n) (R.int n)
  | float (x : Float) : RendersPlainly R h (.float x) (R.float x)
  | text (s : String) : RendersPlainly R h (.text s) (R.text s)
  | list {id} (f : Value → α) (each : ∀ v ∈ (h.items id).toList, RendersPlainly R h v (f v)) :
    RendersPlainly R h (.list id) (R.list ((h.items id).toList.map f))
  | map {id} (f : Value → α)
    (each : ∀ e ∈ (h.entries id).entries, RendersPlainly R h e.2 (f e.2)) :
    RendersPlainly R h (.map id) (R.map ((h.entries id).entries.map fun e => (e.1, f e.2)))

variable {R : Rendering α} {h : Heap} {path : List Ref} {v : Value} {a b : α} {n : Nat}

/-! ## One result -/

theorem Renders.unique (first : h.Renders R path v a) (second : h.Renders R path v b) : a = b := by
  induction first generalizing b with
  | null | bool | int | float | text =>
    cases second
    rfl
  | list new f each ih =>
    cases second with
    | list _ g each' => rw [List.map_congr_left fun v member => ih v member (each' v member)]
    | cutList again => exact absurd again new
  | map new f each ih =>
    cases second with
    | map _ g each' =>
      rw [List.map_congr_left fun e member => by rw [ih e member (each' e member)]]
    | cutMap again => exact absurd again new
  | cutList again =>
    cases second with
    | list new => exact absurd again new
    | cutList => rfl
  | cutMap again =>
    cases second with
    | map new => exact absurd again new
    | cutMap => rfl

theorem RendersPlainly.unique (first : h.RendersPlainly R v a) (second : h.RendersPlainly R v b) :
    a = b := by
  induction first generalizing b with
  | null | bool | int | float | text =>
    cases second
    rfl
  | list f each ih =>
    cases second with
    | list g each' => rw [List.map_congr_left fun v member => ih v member (each' v member)]
  | map f each ih =>
    cases second with
    | map g each' =>
      rw [List.map_congr_left fun e member => by rw [ih e member (each' e member)]]

/-! ## Laying out up to a depth -/

theorem unfoldUpTo_cutList {id : Nat} (again : .list id ∈ path) :
    h.unfoldUpTo n path (.list id) = .cutList := by
  cases n <;> simp [unfoldUpTo, again]

theorem unfoldUpTo_cutMap {id : Nat} (again : .map id ∈ path) :
    h.unfoldUpTo n path (.map id) = .cutMap := by
  cases n <;> simp [unfoldUpTo, again]

theorem unfoldUpTo_list {id : Nat} (new : .list id ∉ path) :
    h.unfoldUpTo (n + 1) path (.list id) =
      .list ((h.items id).toList.map (h.unfoldUpTo n (.list id :: path))) := by
  simp [unfoldUpTo, new]

theorem unfoldUpTo_map {id : Nat} (new : .map id ∉ path) :
    h.unfoldUpTo (n + 1) path (.map id) =
      .map ((h.entries id).entries.map fun e => (e.1, h.unfoldUpTo n (.map id :: path) e.2)) := by
  simp [unfoldUpTo, new]

/-- With as much depth as there are containers that can still be opened, the depth plays no
part. -/
theorem renders_unfoldUpTo (enough : room h.refs path < n) (v : Value) :
    h.Renders .tree path v (h.unfoldUpTo n path v) := by
  induction n generalizing path v with
  | zero => omega
  | succ n ih =>
    cases v with
    | null => exact .null path
    | bool b => exact .bool path b
    | int n => exact .int path n
    | float x => exact .float path x
    | text s => exact .text path s
    | list id =>
      by_cases again : .list id ∈ path
      · rw [unfoldUpTo_cutList again]
        exact .cutList again
      · rw [unfoldUpTo_list again]
        refine .list again _ fun v member => ih ?_ v
        have opened : room h.refs (.list id :: path) < room h.refs path :=
          room_cons_lt (list_mem_refs.2 (lt_of_mem_items member)) again
        omega
    | map id =>
      by_cases again : .map id ∈ path
      · rw [unfoldUpTo_cutMap again]
        exact .cutMap again
      · rw [unfoldUpTo_map again]
        refine .map again _ fun e member => ih ?_ e.2
        have opened : room h.refs (.map id :: path) < room h.refs path :=
          room_cons_lt (map_mem_refs.2 (lt_of_mem_entries member)) again
        omega

theorem renders_unfold (h : Heap) (v : Value) : h.Renders .tree [] v (h.unfold v) := by
  have few := (room_nil_le h.refs).trans h.card_refs_le
  exact renders_unfoldUpTo (Nat.lt_succ_of_le few) v

/-- What is made of the tree of a value is made of the value. -/
theorem Renders.of_tree {f : Tree → α} {t : Tree} (follows : R.Follows f) (distinct : h.Distinct)
    (laid : h.Renders .tree path v t) : h.Renders R path v (f t) := by
  induction laid with
  | null path => exact follows.null ▸ .null path
  | bool path b => exact follows.bool b ▸ .bool path b
  | int path n => exact follows.int n ▸ .int path n
  | float path x => exact follows.float x ▸ .float path x
  | text path s => exact follows.text s ▸ .text path s
  | list new g each ih =>
    have made := Renders.list new (fun v => f (g v)) ih
    rw [Rendering.tree, follows.list, List.map_map]
    exact made
  | @map path id new g each ih =>
    have made := Renders.map new (fun v => f (g v)) ih
    have names : (((h.entries id).entries.map fun e => (e.1, g e.2)).map Prod.fst).Nodup := by
      simpa [Function.comp_def, OrderedMap.Distinct, OrderedMap.keys] using distinct id
    rw [Rendering.tree, follows.map _ names, List.map_map]
    exact made
  | cutList again => exact follows.cutList ▸ .cutList again
  | cutMap again => exact follows.cutMap ▸ .cutMap again

theorem renders_iff {f : Tree → α} (follows : R.Follows f) (distinct : h.Distinct) :
    h.Renders R [] v a ↔ f (h.unfold v) = a := by
  have made := (h.renders_unfold v).of_tree follows distinct
  exact ⟨made.unique, fun same => same ▸ made⟩

/-! ## Containers that do not hold themselves -/

/-- No value that is met on a way down from `v` is met again further down. -/
def Acyclic (h : Heap) (v : Value) : Prop :=
  ∀ w, Relation.ReflTransGen h.Part v w → ¬Relation.TransGen h.Part w w

theorem Acyclic.part {w : Value} (acyclic : h.Acyclic v) (part : h.Part v w) : h.Acyclic w :=
  fun u reached => acyclic u (.head part reached)

theorem acyclic_of_parts (parts : ∀ w, h.Part v w → h.Acyclic w) : h.Acyclic v := by
  intro w reached cycle
  rcases reached.cases_head with same | ⟨u, part, rest⟩
  · subst same
    obtain ⟨u, part, rest⟩ := Relation.TransGen.head'_iff.1 cycle
    exact parts u part v rest cycle
  · exact parts u part w rest cycle

/-- Only values without a cycle can be rendered plainly. -/
theorem RendersPlainly.acyclic (plain : h.RendersPlainly R v a) : h.Acyclic v := by
  induction plain with
  | null | bool | int | float | text => exact acyclic_of_parts fun _ part => nomatch part
  | list f each ih =>
    refine acyclic_of_parts fun w part => ?_
    cases part with
    | item member => exact ih w member
  | map f each ih =>
    refine acyclic_of_parts fun w part => ?_
    cases part with
    | value member => exact ih _ member

/-- Where there is no cycle, and nothing that is open can be met again, nothing is cut off. -/
theorem Renders.plainly (rendered : h.Renders R path v a) (acyclic : h.Acyclic v)
    (clear : ∀ r ∈ path, ¬Relation.ReflTransGen h.Part v r.value) : h.RendersPlainly R v a := by
  induction rendered with
  | null => exact .null
  | bool path b => exact .bool b
  | int path n => exact .int n
  | float path x => exact .float x
  | text path s => exact .text s
  | cutList again => exact absurd .refl (clear _ again)
  | cutMap again => exact absurd .refl (clear _ again)
  | list new f each ih =>
    refine .list f fun v member => ih v member (acyclic.part (.item member)) ?_
    intro r opened reached
    rcases List.mem_cons.1 opened with here | above
    · subst here
      exact acyclic _ .refl (.head' (.item member) reached)
    · exact clear r above (.head (.item member) reached)
  | map new f each ih =>
    refine .map f fun e member => ih e member (acyclic.part (.value member)) ?_
    intro r opened reached
    rcases List.mem_cons.1 opened with here | above
    · subst here
      exact acyclic _ .refl (.head' (.value member) reached)
    · exact clear r above (.head (.value member) reached)

theorem rendersPlainly_iff {f : Tree → α} (follows : R.Follows f) (distinct : h.Distinct)
    (acyclic : h.Acyclic v) : h.RendersPlainly R v a ↔ f (h.unfold v) = a := by
  have made := (h.renders_unfold v).of_tree follows distinct
  have plain := made.plainly acyclic (by simp)
  exact ⟨plain.unique, fun same => same ▸ plain⟩

theorem Renders.plainly_of_whole {t : Tree} (laid : h.Renders .tree path v t)
    (whole : ¬t.HasCut) : h.RendersPlainly .tree v t := by
  induction laid with
  | null => exact .null
  | bool path b => exact .bool b
  | int path n => exact .int n
  | float path x => exact .float x
  | text path s => exact .text s
  | cutList => exact absurd .list whole
  | cutMap => exact absurd .map whole
  | list new f each ih =>
    refine .list f fun v member => ih v member fun cut => whole ?_
    exact .item (List.mem_map_of_mem member) cut
  | map new f each ih =>
    refine .map f fun e member => ih e member fun cut => whole ?_
    exact .value (List.mem_map_of_mem member) cut

theorem RendersPlainly.whole {t : Tree} (plain : h.RendersPlainly .tree v t) : ¬t.HasCut := by
  induction plain with
  | null | bool | int | float | text => exact fun cut => nomatch cut
  | list f each ih =>
    intro cut
    cases cut with
    | item member inner =>
      obtain ⟨v, there, rfl⟩ := List.mem_map.1 member
      exact ih v there inner
  | map f each ih =>
    intro cut
    cases cut with
    | value member inner =>
      obtain ⟨e, there, rfl⟩ := List.mem_map.1 member
      exact ih e there inner

/-- A container is cut off somewhere exactly if there is a cycle. -/
theorem hasCut_unfold : (h.unfold v).HasCut ↔ ¬h.Acyclic v := by
  have laid := h.renders_unfold v
  constructor
  · intro cut acyclic
    exact (laid.plainly acyclic (by simp)).whole cut
  · intro cyclic
    by_contra whole
    exact cyclic (laid.plainly_of_whole whole).acyclic

/-- Laying a value out, its text and its JSON form come to an end with one result, the one that the
rules of the rendering give when each container met inside itself is marked. Something is marked
exactly if there is a cycle; without one, all three are plain recursion over the parts. -/
theorem rendered_along_paths (h : Heap) (distinct : h.Distinct) (v : Value) :
    (∀ t, h.Renders .tree [] v t ↔ h.unfold v = t) ∧
    (∀ s, h.Renders .display [] v s ↔ h.display v = s) ∧
    (∀ j, h.Renders .json [] v j ↔ h.toJson v = j) ∧
    ((h.unfold v).HasCut ↔ ¬h.Acyclic v) ∧
    (h.Acyclic v →
      (∀ t, h.RendersPlainly .tree v t ↔ h.unfold v = t) ∧
      (∀ s, h.RendersPlainly .display v s ↔ h.display v = s) ∧
      ∀ j, h.RendersPlainly .json v j ↔ h.toJson v = j) := by
  have follows : Rendering.tree.Follows id := by
    constructor <;> simp [Rendering.tree]
  refine ⟨fun t => renders_iff follows distinct, fun s => renders_iff Tree.follows_display distinct,
    fun j => renders_iff Tree.follows_toJson distinct, hasCut_unfold, ?_⟩
  intro acyclic
  exact ⟨fun t => rendersPlainly_iff follows distinct acyclic,
    fun s => rendersPlainly_iff Tree.follows_display distinct acyclic,
    fun j => rendersPlainly_iff Tree.follows_toJson distinct acyclic⟩

/-- A list with a shared item, and a list and a map that hold themselves and each other. -/
def tangle : Heap where
  lists := #[#[.list 1, .list 1], #[.int 1], #[.map 0, .list 2]]
  maps := #[⟨[("me", .map 0), ("it", .list 2)]⟩]

/-- What is shared is written out at each of its places; what holds itself is marked. -/
theorem rendered_along_paths_tangle : tangle.Distinct ∧ tangle.Acyclic (.list 0) ∧
    tangle.RendersPlainly .display (.list 0) "[[1], [1]]" ∧ ¬tangle.Acyclic (.list 2) ∧
    tangle.Renders .display [] (.list 2)
      "[\x7bme=(this Map), it=(this Collection)\x7d, (this Collection)]" := by
  have distinct : tangle.Distinct := by
    intro id
    rcases id with _ | id
    · exact show List.Nodup _ by decide
    · exact List.nodup_nil
  obtain ⟨-, -, -, cut, plain⟩ := rendered_along_paths tangle distinct (.list 0)
  obtain ⟨-, text, -, knot, -⟩ := rendered_along_paths tangle distinct (.list 2)
  have acyclic : tangle.Acyclic (.list 0) := by
    have whole : ¬(Tree.list [.list [.int 1], .list [.int 1]]).HasCut := by
      have item : ¬(Tree.list [.int 1]).HasCut := by
        intro cut
        cases cut with
        | item member inner =>
          rw [List.mem_singleton.1 member] at inner
          cases inner
      intro cut
      cases cut with
      | item member inner => simp_all
    by_contra cyclic
    exact whole (cut.2 cyclic)
  exact ⟨distinct, acyclic, ((plain acyclic).2.1 _).2 (by decide +kernel),
    knot.1 (.item (.tail _ (.head _)) .list), (text _).2 (by decide +kernel)⟩

end Heap

end Polyglot
