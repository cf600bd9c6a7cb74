import Polyglot.Program.Codec
import Polyglot.Proofs.Conversion
import Polyglot.Proofs.Json.Layout
import Polyglot.Proofs.Program.Parts

/-!
# Programs and their JSON text

Writing a program as JSON loses nothing: its text is read as the program itself, unless it is too
deep for the reader. The numbers of its locations have to fit 64 bits, and its doubles have to be
read back from their own text.
-/

namespace Polyglot

/-- The numbers of a location fit 64 bits. -/
structure Location.Fits (l : Location) : Prop where
  start : l.span.start < wordLimit
  stop : l.span.stop < wordLimit
  line : l.pos.line < wordLimit
  column : l.pos.column < wordLimit

/-! ## Locations, names and literals -/

namespace Json

theorem toSize?_int {n : Nat} (fits : n < wordLimit) : (int n).toSize? = some n := by
  have bounds : (0 : Int) ≤ n ∧ (n : Int) < wordLimit := by omega
  rw [toSize?, if_pos bounds, Int.toNat_natCast]

/-! Each reader is followed on any parts that can be read, so that nothing has to be computed with
the numbers in them. -/

theorem toSpan?_of_parts {start stop : Json} {s : Span} (first : start.toSize? = some s.start)
    (last : stop.toSize? = some s.stop) :
    (obj [("start", start), ("end", stop)]).toSpan? = some s := by
  simp [toSpan?, record?, OrderedMap.find?, first, last]

theorem toPosition?_of_parts {line column : Json} {p : Position}
    (first : line.toSize? = some p.line) (last : column.toSize? = some p.column) :
    (obj [("line", line), ("column", column)]).toPosition? = some p := by
  simp [toPosition?, record?, OrderedMap.find?, first, last]

theorem toLocated?_of_parts {item span pos : Json} {loc : Location}
    (first : span.toSpan? = some loc.span) (last : pos.toPosition? = some loc.pos) :
    (obj [("node", item), ("span", span), ("pos", pos)]).toLocated? = some (item, loc) := by
  simp [toLocated?, record?, OrderedMap.find?, first, last]

theorem toLocated?_ofLocated (item : Json) {loc : Location} (fits : loc.Fits) :
    (ofLocated item loc).toLocated? = some (item, loc) :=
  toLocated?_of_parts (toSpan?_of_parts (toSize?_int fits.start) (toSize?_int fits.stop))
    (toPosition?_of_parts (toSize?_int fits.line) (toSize?_int fits.column))

theorem toName?_ofName {name : Located String} (fits : name.loc.Fits) :
    (ofName name).toName? = some name := by
  rw [toName?, ofName, toLocated?_ofLocated _ fits]
  rfl

theorem fitsWord_natCast {n : Nat} (fits : n < wordLimit) : FitsWord n :=
  .inr ⟨by omega, by omega⟩

theorem legible_ofLocated {item : Json} (legible : item.Legible) {loc : Location}
    (fits : loc.Fits) : (ofLocated item loc).Legible := by
  simp [ofLocated, ofSpan, ofPosition, Legible, AllFieldsLegible, legible,
    fitsWord_natCast fits.start, fitsWord_natCast fits.stop, fitsWord_natCast fits.line,
    fitsWord_natCast fits.column]

theorem legible_node (tag : String) {parts : Json} (legible : parts.Legible) {loc : Location}
    (fits : loc.Fits) : (node tag loc parts).Legible :=
  legible_ofLocated (by simp [shape, Legible, AllFieldsLegible, legible]) fits

theorem legible_ofName {name : Located String} (fits : name.loc.Fits) : (ofName name).Legible :=
  legible_ofLocated (by simp [Legible]) fits

end Json

theorem BinaryOp.ofTag?_tag (op : BinaryOp) : ofTag? op.tag = some op := by
  cases op <;> rfl

theorem UnaryOp.ofTag?_tag (op : UnaryOp) : ofTag? op.tag = some op := by
  cases op <;> rfl

theorem LogicalOp.ofTag?_tag (op : LogicalOp) : ofTag? op.tag = some op := by
  cases op <;> rfl

theorem Direction.ofTag?_tag (d : Direction) : ofTag? d.tag = some d := by
  cases d <;> rfl

theorem Constant.ofJson?_toJson (value : Constant) : ofJson? value.toJson = some value := by
  cases value with
  | int n =>
    simp [ofJson?, toJson, Json.shape, Json.tagged?, Json.toInt64?, fitsInt64_toInt]
  | _ => rfl

theorem Constant.legible_toJson {value : Constant}
    (doubles : ∀ x, value = .float x → Json.ReadsBack x) : value.toJson.Legible := by
  cases value <;> simp [toJson, Json.shape, Json.Legible, Json.AllFieldsLegible]
  · exact .inl (fitsInt64_toInt _)
  · exact doubles _ rfl

theorem LoopTarget.ofJson?_single {written : Json} {only : Located String}
    (named : written.toName? = some only) :
    ofJson? (.shape "Single" written) = some (single only) := by
  show (do return single (← written.toName?) : Option LoopTarget) = _
  rw [named]
  rfl

theorem LoopTarget.ofJson?_pair {written written' : Json} {first second : Located String}
    (named : written.toName? = some first) (named' : written'.toName? = some second) :
    ofJson? (.shape "Pair" (.arr [written, written'])) = some (pair first second) := by
  show (do return pair (← written.toName?) (← written'.toName?) : Option LoopTarget) = _
  rw [named, named']
  rfl

theorem LoopTarget.ofJson?_toJson {target : LoopTarget}
    (fits : ∀ name ∈ target.names, name.loc.Fits) : ofJson? target.toJson = some target := by
  cases target with
  | single only => exact ofJson?_single (Json.toName?_ofName (fits only (by simp [names])))
  | pair first second =>
    exact ofJson?_pair (Json.toName?_ofName (fits first (by simp [names])))
      (Json.toName?_ofName (fits second (by simp [names])))

theorem LoopTarget.legible_toJson {target : LoopTarget}
    (fits : ∀ name ∈ target.names, name.loc.Fits) : target.toJson.Legible := by
  cases target <;>
    simp [names] at fits <;>
    simp [toJson, Json.shape, Json.Legible, Json.AllFieldsLegible, Json.AllLegible,
      Json.legible_ofName, fits]

/-! ## Nodes -/

namespace Node

/-! Lists of nodes and of pairs of nodes. -/

theorem toJsonAll_eq_map (ns : List Node) : toJsonAll ns = ns.map toJson := by
  induction ns with
  | nil => rw [toJsonAll, List.map_nil]
  | cons n ns ih => rw [toJsonAll, List.map_cons, ih]

theorem toJsonProperties_eq_map (ps : List (Node × Node)) :
    toJsonProperties ps =
      ps.map fun p => .obj [("key", p.1.toJson), ("value", p.2.toJson)] := by
  induction ps with
  | nil => rw [toJsonProperties, List.map_nil]
  | cons p ps ih => rw [toJsonProperties, List.map_cons, ih]

theorem mapM_map_eq_some {α β : Type} {write : α → β} {read : β → Option α} {l : List α}
    (back : ∀ a ∈ l, read (write a) = some a) : (l.map write).mapM read = some l := by
  induction l with
  | nil => rfl
  | cons a l ih =>
    have first := back a List.mem_cons_self
    have rest := ih fun b member => back b (List.mem_cons_of_mem a member)
    simp [first, rest]

theorem toList?_toJsonAll {node : Json → Option Node} {ns : List Node}
    (children : ∀ c ∈ ns, node c.toJson = some c) :
    (Json.arr (toJsonAll ns)).toList? node = some ns := by
  rw [toJsonAll_eq_map]
  exact mapM_map_eq_some children

theorem toList?_toJsonProperties {node : Json → Option Node} {ps : List (Node × Node)}
    (children : ∀ c ∈ ps.flatMap fun p => [p.1, p.2], node c.toJson = some c) :
    (Json.arr (toJsonProperties ps)).toList? (propertyOfJson? node) = some ps := by
  rw [toJsonProperties_eq_map]
  refine mapM_map_eq_some fun p member => ?_
  have key := children p.1 (List.mem_flatMap.2 ⟨p, member, by simp⟩)
  have value := children p.2 (List.mem_flatMap.2 ⟨p, member, by simp⟩)
  show (do return (← node p.1.toJson, ← node p.2.toJson) : Option (Node × Node)) = _
  rw [key, value]
  rfl

theorem exists_toJson (n : Node) : ∃ fields, n.toJson = .obj fields := by
  cases n with
  | conditional _ _ _ elseBranch => cases elseBranch <;> exact ⟨_, rfl⟩
  | returnValue _ value => cases value <;> exact ⟨_, rfl⟩
  | _ => exact ⟨_, rfl⟩

/-- A part that is there is never taken for one that is missing. -/
theorem toOption?_toJson {node : Json → Option Node} {n : Node} (back : node n.toJson = some n) :
    Json.toOption? node (some n.toJson) = some (some n) := by
  obtain ⟨fields, isObj⟩ := n.exists_toJson
  rw [isObj] at back ⊢
  show (node (.obj fields)).map some = _
  rw [back]
  rfl

/-! Shapes with a name among their parts. -/

section

variable {node : Json → Option Node} (loc : Location)

theorem ofShape?_call {written args : Json} {callee : Located String} {items : List Node}
    (named : written.toName? = some callee) (back : args.toList? node = some items) :
    ofShape? node loc (.shape "Call" (.obj [("callee", written), ("args", args)])) =
      some (call loc callee items) := by
  show (do return call loc (← written.toName?) (← args.toList? node) : Option Node) = _
  rw [named, back]
  rfl

theorem ofShape?_countLoop {written : Json} {counter : Located String}
    {start bound step body : Node} (direction : Direction) (retain : Bool)
    (named : written.toName? = some counter) (starts : node start.toJson = some start)
    (ends : node bound.toJson = some bound) (moves : node step.toJson = some step)
    (repeats : node body.toJson = some body) :
    ofShape? node loc (.shape "For" (.obj [("var", written), ("start", start.toJson),
        ("bound", bound.toJson), ("direction", .str direction.tag), ("step", step.toJson),
        ("body", body.toJson), ("retain", .bool retain)])) =
      some (countLoop loc counter start bound direction step body retain) := by
  show (do
    return countLoop loc (← written.toName?) (← node start.toJson) (← node bound.toJson)
      (← Direction.ofTag? direction.tag) (← node step.toJson) (← node body.toJson) retain :
        Option Node) = _
  rw [named, starts, ends, direction.ofTag?_tag, moves, repeats]
  rfl

theorem ofShape?_eachLoop {written : Json} {target : LoopTarget} {collection body : Node}
    (retain : Bool) (named : LoopTarget.ofJson? written = some target)
    (ranges : node collection.toJson = some collection)
    (repeats : node body.toJson = some body) :
    ofShape? node loc (.shape "ForOf" (.obj [("target", written),
        ("collection", collection.toJson), ("body", body.toJson), ("retain", .bool retain)])) =
      some (eachLoop loc target collection body retain) := by
  show (do
    return eachLoop loc (← LoopTarget.ofJson? written) (← node collection.toJson)
      (← node body.toJson) retain : Option Node) = _
  rw [named, ranges, repeats]
  rfl

end

/-- A node is read back if the nodes in it are. -/
theorem ofShape?_item {node : Json → Option Node} {n : Node}
    (names : ∀ x ∈ n.names, x.loc.Fits) (children : ∀ c ∈ n.children, node c.toJson = some c) :
    ∃ item, n.toJson = .ofLocated item n.loc ∧ ofShape? node n.loc item = some n := by
  cases n with
  | name | breakLoop | continueLoop => exact ⟨_, rfl, rfl⟩
  | constant loc value =>
    refine ⟨_, rfl, ?_⟩
    show (do return constant loc (← Constant.ofJson? value.toJson) : Option Node) = _
    rw [value.ofJson?_toJson]
    rfl
  | block loc body =>
    have back : Json.toList? node (.arr (toJsonAll body)) = some body := toList?_toJsonAll children
    refine ⟨_, rfl, ?_⟩
    show (do return block loc (← Json.toList? node (.arr (toJsonAll body))) : Option Node) = _
    rw [back]
    rfl
  | array loc items =>
    have back : Json.toList? node (.arr (toJsonAll items)) = some items :=
      toList?_toJsonAll children
    refine ⟨_, rfl, ?_⟩
    show (do return array loc (← Json.toList? node (.arr (toJsonAll items))) : Option Node) = _
    rw [back]
    rfl
  | object loc properties =>
    have back : Json.toList? (propertyOfJson? node) (.arr (toJsonProperties properties)) =
      some properties := toList?_toJsonProperties children
    refine ⟨_, rfl, ?_⟩
    show (do
      return object loc (← Json.toList? (propertyOfJson? node)
        (.arr (toJsonProperties properties))) : Option Node) = _
    rw [back]
    rfl
  | statement loc value =>
    refine ⟨_, rfl, ?_⟩
    show (do return statement loc (← node value.toJson) : Option Node) = _
    rw [children value (by simp [Node.children])]
    rfl
  | assign loc target value =>
    refine ⟨_, rfl, ?_⟩
    show (do return assign loc (← node target.toJson) (← node value.toJson) : Option Node) = _
    rw [children target (by simp [Node.children]), children value (by simp [Node.children])]
    rfl
  | index loc owner key =>
    refine ⟨_, rfl, ?_⟩
    show (do return index loc (← node owner.toJson) (← node key.toJson) : Option Node) = _
    rw [children owner (by simp [Node.children]), children key (by simp [Node.children])]
    rfl
  | binary loc left op right =>
    refine ⟨_, rfl, ?_⟩
    show (do
      return binary loc (← node left.toJson) (← BinaryOp.ofTag? op.tag) (← node right.toJson) :
        Option Node) = _
    rw [children left (by simp [Node.children]), children right (by simp [Node.children]),
      op.ofTag?_tag]
    rfl
  | logical loc left op right =>
    refine ⟨_, rfl, ?_⟩
    show (do
      return logical loc (← node left.toJson) (← LogicalOp.ofTag? op.tag) (← node right.toJson) :
        Option Node) = _
    rw [children left (by simp [Node.children]), children right (by simp [Node.children]),
      op.ofTag?_tag]
    rfl
  | unary loc op operand =>
    refine ⟨_, rfl, ?_⟩
    show (do return unary loc (← UnaryOp.ofTag? op.tag) (← node operand.toJson) : Option Node) = _
    rw [children operand (by simp [Node.children]), op.ofTag?_tag]
    rfl
  | whileLoop loc condition body retain =>
    refine ⟨_, rfl, ?_⟩
    show (do
      return whileLoop loc (← node condition.toJson) (← node body.toJson) retain :
        Option Node) = _
    rw [children condition (by simp [Node.children]), children body (by simp [Node.children])]
    rfl
  | call loc callee args =>
    have named := Json.toName?_ofName (names callee (by simp [Node.names]))
    exact ⟨_, rfl, ofShape?_call loc named (toList?_toJsonAll children)⟩
  | countLoop loc counter start bound direction step body retain =>
    have named := Json.toName?_ofName (names counter (by simp [Node.names]))
    exact ⟨_, rfl, ofShape?_countLoop loc direction retain named
      (children start (by simp [Node.children])) (children bound (by simp [Node.children]))
      (children step (by simp [Node.children])) (children body (by simp [Node.children]))⟩
  | eachLoop loc target collection body retain =>
    have named := LoopTarget.ofJson?_toJson names
    exact ⟨_, rfl, ofShape?_eachLoop loc retain named
      (children collection (by simp [Node.children])) (children body (by simp [Node.children]))⟩
  | returnValue loc value =>
    cases value with
    | none => exact ⟨_, rfl, rfl⟩
    | some value =>
      refine ⟨_, rfl, ?_⟩
      show (do return returnValue loc (← Json.toOption? node (some value.toJson)) : Option Node) = _
      rw [toOption?_toJson (children value (by simp [Node.children]))]
      rfl
  | conditional loc condition thenBranch elseBranch =>
    have tested := children condition (by simp [Node.children])
    have taken := children thenBranch (by simp [Node.children])
    cases elseBranch with
    | none =>
      refine ⟨_, rfl, ?_⟩
      show (do
        return conditional loc (← node condition.toJson) (← node thenBranch.toJson) none :
          Option Node) = _
      rw [tested, taken]
      rfl
    | some elseBranch =>
      refine ⟨_, rfl, ?_⟩
      show (do
        return conditional loc (← node condition.toJson) (← node thenBranch.toJson)
          (← Json.toOption? node (some elseBranch.toJson)) : Option Node) = _
      rw [tested, taken, toOption?_toJson (children elseBranch (by simp [Node.children]))]
      rfl

theorem nesting_le_all {c : Node} {ns : List Node} (member : c ∈ ns) :
    c.toJson.nesting ≤ Json.nestingItems (toJsonAll ns) := by
  induction ns with
  | nil => cases member
  | cons n ns ih =>
    rw [toJsonAll, Json.nestingItems]
    rcases List.mem_cons.1 member with rfl | later
    · exact Nat.le_max_left _ _
    · exact (ih later).trans (Nat.le_max_right _ _)

theorem nesting_le_properties {c : Node} {ps : List (Node × Node)}
    (member : c ∈ ps.flatMap fun p => [p.1, p.2]) :
    c.toJson.nesting ≤ Json.nestingItems (toJsonProperties ps) := by
  induction ps with
  | nil => cases member
  | cons p ps ih =>
    obtain ⟨key, value⟩ := p
    simp only [toJsonProperties, Json.nestingItems, Json.nesting, Json.nestingFields]
    simp only [List.flatMap_cons, List.mem_append, List.mem_cons, List.not_mem_nil, or_false]
      at member
    rcases member with (rfl | rfl) | later
    · omega
    · omega
    · have := ih later
      omega

/-- The JSON of a node has more levels than that of any node in it. -/
theorem nesting_child {c n : Node} (member : c ∈ n.children) :
    c.toJson.nesting < n.toJson.nesting := by
  have levels (tag : String) (loc : Location) (parts : Json) :
      parts.nesting < (Json.node tag loc parts).nesting := by
    simp only [Json.node, Json.ofLocated, Json.shape, Json.nesting, Json.nestingFields]
    omega
  have items {tag : String} {loc : Location} {parts : List Json}
      (less : c.toJson.nesting ≤ Json.nestingItems parts) :
      c.toJson.nesting < (Json.node tag loc (.arr parts)).nesting := by
    refine (Nat.lt_succ_of_le less).trans_le ?_
    exact (levels tag loc (.arr parts)).le
  cases n with
  | constant | name | breakLoop | continueLoop => cases member
  | block loc body => exact items (nesting_le_all member)
  | array loc members => exact items (nesting_le_all member)
  | object loc properties => exact items (nesting_le_properties member)
  | call loc callee args =>
    have inner : c.toJson.nesting ≤ Json.nestingItems (toJsonAll args) := nesting_le_all member
    refine Nat.lt_trans ?_ (levels "Call" loc _)
    simp only [Json.nesting, Json.nestingFields]
    omega
  | statement loc value =>
    rw [List.mem_singleton.1 member]
    exact levels "ExprStmt" loc value.toJson
  | returnValue loc value =>
    cases value with
    | none => cases member
    | some value =>
      rw [List.mem_singleton.1 member]
      exact levels "Return" loc value.toJson
  | conditional loc condition thenBranch elseBranch =>
    cases elseBranch with
    | none =>
      refine Nat.lt_trans ?_ (levels "If" loc _)
      simp only [children, Option.toList_none, List.mem_cons, List.not_mem_nil, or_false] at member
      simp only [Json.nesting, Json.nestingFields]
      rcases member with rfl | rfl <;> omega
    | some elseBranch =>
      refine Nat.lt_trans ?_ (levels "If" loc _)
      simp only [children, Option.toList_some, List.mem_cons, List.not_mem_nil, or_false] at member
      simp only [Json.nesting, Json.nestingFields]
      rcases member with rfl | rfl | rfl <;> omega
  | assign | binary | logical | unary | index | whileLoop | countLoop | eachLoop =>
    refine Nat.lt_trans ?_ (levels _ _ _)
    simp only [children, List.mem_cons, List.not_mem_nil, or_false] at member
    simp only [Json.nesting, Json.nestingFields]
    rcases member with rfl | rfl | rfl | rfl <;> omega

/-- What holds of a node if it holds of the nodes in it holds of every node. -/
theorem induction_on_children {P : Node → Prop} (step : ∀ n, (∀ c ∈ n.children, P c) → P n)
    (n : Node) : P n := by
  induction levels : n.toJson.nesting using Nat.strongRecOn generalizing n with
  | ind d ih => exact step n fun c member => ih _ (levels ▸ nesting_child member) c rfl

/-- What a node itself holds is read back: the numbers of its location and of those of its names,
and its value if it is a double. -/
structure Keepable (n : Node) : Prop where
  loc : n.loc.Fits
  names : ∀ x ∈ n.names, x.loc.Fits
  double : ∀ loc x, n = .constant loc (.float x) → Json.ReadsBack x

/-- A node is read back from its JSON. -/
theorem ofJsonUpTo?_toJson {n : Node} (keepable : ∀ m : Node, m.Within n → m.Keepable) {k : Nat}
    (enough : n.toJson.nesting ≤ k) : ofJsonUpTo? k n.toJson = some n := by
  induction n using induction_on_children generalizing k with
  | step n ih =>
    obtain ⟨fields, isObj⟩ := n.exists_toJson
    have some : 0 < n.toJson.nesting := by
      rw [isObj, Json.nesting]
      omega
    obtain ⟨k, rfl⟩ := Nat.exists_eq_add_one_of_ne_zero (Nat.ne_zero_of_lt (some.trans_le enough))
    have children : ∀ c ∈ n.children, ofJsonUpTo? k c.toJson = .some c := by
      intro c member
      have less := nesting_child member
      exact ih c member (fun m within => keepable m (.child member within)) (by omega)
    -- One level is read by the lemma above, the nodes in it with one level less.
    have own := keepable n (.self n)
    obtain ⟨item, written, back⟩ := ofShape?_item own.names children
    rw [written, ofJsonUpTo?, Json.toLocated?_ofLocated item own.loc]
    exact back

theorem allLegible_toJsonAll {ns : List Node} (legible : ∀ c ∈ ns, c.toJson.Legible) :
    Json.AllLegible (toJsonAll ns) := by
  induction ns with
  | nil => simp [toJsonAll, Json.AllLegible]
  | cons n ns ih =>
    rw [toJsonAll, Json.AllLegible]
    exact ⟨legible n List.mem_cons_self,
      ih fun c member => legible c (List.mem_cons_of_mem n member)⟩

theorem allLegible_toJsonProperties {ps : List (Node × Node)}
    (legible : ∀ c ∈ ps.flatMap fun p => [p.1, p.2], c.toJson.Legible) :
    Json.AllLegible (toJsonProperties ps) := by
  induction ps with
  | nil => simp [toJsonProperties, Json.AllLegible]
  | cons p ps ih =>
    obtain ⟨key, value⟩ := p
    rw [List.flatMap_cons, List.forall_mem_append] at legible
    obtain ⟨here, rest⟩ := legible
    have first : (Json.obj [("key", key.toJson), ("value", value.toJson)]).Legible := by
      simp [Json.Legible, Json.AllFieldsLegible, here key, here value]
    rw [toJsonProperties, Json.AllLegible]
    exact ⟨first, ih rest⟩

/-- The JSON of a node is legible. -/
theorem legible_toJson {n : Node} (keepable : ∀ m : Node, m.Within n → m.Keepable) :
    n.toJson.Legible := by
  induction n using induction_on_children with
  | step n ih =>
    obtain ⟨fits, names, double⟩ := keepable n (.self n)
    have children : ∀ c ∈ n.children, c.toJson.Legible := fun c member =>
      ih c member fun m within => keepable m (.child member within)
    cases n with
    | constant loc value =>
      have legible := Constant.legible_toJson fun x same => double loc x (same ▸ rfl)
      exact Json.legible_node "Literal" legible fits
    | name loc s => exact Json.legible_node "Ident" (by simp [Json.Legible]) fits
    | breakLoop | continueLoop => exact Json.legible_ofLocated (by simp [Json.Legible]) fits
    | block | array =>
      refine Json.legible_node _ ?_ fits
      rw [Json.Legible]
      exact allLegible_toJsonAll children
    | object =>
      refine Json.legible_node _ ?_ fits
      rw [Json.Legible]
      exact allLegible_toJsonProperties children
    | call loc callee args =>
      have named := Json.legible_ofName (names callee (by simp [Node.names]))
      have legible : Json.AllLegible (toJsonAll args) := allLegible_toJsonAll children
      refine Json.legible_node _ ?_ fits
      simp [Json.Legible, Json.AllFieldsLegible, named, legible]
    | countLoop loc counter =>
      have named := Json.legible_ofName (names counter (by simp [Node.names]))
      simp [Node.children] at children
      refine Json.legible_node _ ?_ fits
      simp [Json.Legible, Json.AllFieldsLegible, named, children]
    | eachLoop loc target =>
      have named := LoopTarget.legible_toJson names
      simp [Node.children] at children
      refine Json.legible_node _ ?_ fits
      simp [Json.Legible, Json.AllFieldsLegible, named, children]
    | returnValue loc value =>
      cases value with
      | none => exact Json.legible_node "Return" (by simp [Json.Legible]) fits
      | some value =>
        exact Json.legible_node "Return" (children value (by simp [Node.children])) fits
    | conditional loc condition thenBranch elseBranch =>
      cases elseBranch <;>
        simp [Node.children] at children <;>
        refine Json.legible_node "If" ?_ fits <;>
        simp [Json.Legible, Json.AllFieldsLegible, children]
    | statement loc value =>
      exact Json.legible_node _ (children value (by simp [Node.children])) fits
    | assign | binary | logical | unary | index | whileLoop =>
      simp [Node.children] at children
      refine Json.legible_node _ ?_ fits
      simp [Json.Legible, Json.AllFieldsLegible, children]

end Node

namespace Program

/-- A node of a program. -/
def Holds (p : Program) (n : Node) : Prop :=
  ∃ statement ∈ p.body, n.Within statement

theorem ofJson?_toJson {p : Program} (keepable : ∀ n, p.Holds n → n.Keepable) :
    ofJson? p.toJson = some p := by
  have back : Json.toList? Node.ofJson? (.arr (Node.toJsonAll p.body)) = some p.body :=
    Node.toList?_toJsonAll fun statement member => Node.ofJsonUpTo?_toJson
      (fun n within => keepable n ⟨statement, member, within⟩) (Nat.le_refl _)
  show (do
    return ⟨p.name, p.source, ← Json.toList? Node.ofJson? (.arr (Node.toJsonAll p.body))⟩ :
      Option Program) = _
  rw [back]
  rfl

theorem legible_toJson {p : Program} (keepable : ∀ n, p.Holds n → n.Keepable) :
    p.toJson.Legible := by
  have statements : Json.AllLegible (Node.toJsonAll p.body) :=
    Node.allLegible_toJsonAll fun statement member => Node.legible_toJson fun n within =>
      keepable n ⟨statement, member, within⟩
  simp [toJson, Json.Legible, Json.AllFieldsLegible, statements]

end Program

end Polyglot
