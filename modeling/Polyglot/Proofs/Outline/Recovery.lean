import Polyglot.Proofs.Outline.Labels
import Polyglot.Proofs.Parsing.Shape

/-!
# Outlines tell programs apart

The outline of a program is the layout of a tree of labels, from which the program can be built
again up to what is not shown: the bytes that its nodes take, and where the names stand in calls and
in the headers of loops. Names of accepted programs are identifiers, so their labels can be read,
and two accepted programs with the same outline differ in nothing else.
-/

namespace Polyglot

/-! ## What an outline leaves out -/

/-- The same position, for no bytes in particular. -/
def Location.withoutSpan (l : Location) : Location :=
  ⟨default, l.pos⟩

/-- The same item, read nowhere in particular. -/
def Located.withoutLocation {α : Type} (x : Located α) : Located α :=
  ⟨x.item, default⟩

/-- The same names, read nowhere in particular. -/
def LoopTarget.withoutLocations : LoopTarget → LoopTarget
  | single name => single name.withoutLocation
  | pair first second => pair first.withoutLocation second.withoutLocation

namespace Node

mutual

/-- The same tree without the spans of its nodes and without the locations of callees and of the
names in the headers of loops. -/
def withoutSpans : Node → Node
  | constant l value => constant l.withoutSpan value
  | name l s => name l.withoutSpan s
  | block l body => block l.withoutSpan (withoutSpansAll body)
  | statement l value => statement l.withoutSpan value.withoutSpans
  | assign l target value => assign l.withoutSpan target.withoutSpans value.withoutSpans
  | call l callee args => call l.withoutSpan callee.withoutLocation (withoutSpansAll args)
  | binary l left op right => binary l.withoutSpan left.withoutSpans op right.withoutSpans
  | unary l op operand => unary l.withoutSpan op operand.withoutSpans
  | logical l left op right => logical l.withoutSpan left.withoutSpans op right.withoutSpans
  | conditional l condition thenBranch none =>
    conditional l.withoutSpan condition.withoutSpans thenBranch.withoutSpans none
  | conditional l condition thenBranch (some elseBranch) =>
    conditional l.withoutSpan condition.withoutSpans thenBranch.withoutSpans
      (some elseBranch.withoutSpans)
  | index l owner key => index l.withoutSpan owner.withoutSpans key.withoutSpans
  | object l properties => object l.withoutSpan (withoutSpansPairs properties)
  | array l items => array l.withoutSpan (withoutSpansAll items)
  | whileLoop l condition body retain =>
    whileLoop l.withoutSpan condition.withoutSpans body.withoutSpans retain
  | countLoop l counter start bound direction step body retain =>
    countLoop l.withoutSpan counter.withoutLocation start.withoutSpans bound.withoutSpans direction
      step.withoutSpans body.withoutSpans retain
  | eachLoop l target collection body retain =>
    eachLoop l.withoutSpan target.withoutLocations collection.withoutSpans body.withoutSpans retain
  | breakLoop l => breakLoop l.withoutSpan
  | continueLoop l => continueLoop l.withoutSpan
  | returnValue l none => returnValue l.withoutSpan none
  | returnValue l (some value) => returnValue l.withoutSpan (some value.withoutSpans)

/-- The same trees without their spans. -/
def withoutSpansAll : List Node → List Node
  | [] => []
  | n :: ns => n.withoutSpans :: withoutSpansAll ns

/-- The same keys and values without their spans. -/
def withoutSpansPairs : List (Node × Node) → List (Node × Node)
  | [] => []
  | (key, value) :: ps => (key.withoutSpans, value.withoutSpans) :: withoutSpansPairs ps

end

theorem withoutSpansAll_eq_map (ns : List Node) : withoutSpansAll ns = ns.map withoutSpans := by
  induction ns with
  | nil => rfl
  | cons n ns ih => rw [withoutSpansAll, ih, List.map_cons]

end Node

/-! ## The tree that an outline shows -/

namespace OutlineTree

variable {α : Type}

/-- The tree with another part, the last one. -/
def withPart : OutlineTree α → OutlineTree α → OutlineTree α
  | node label pos parts, part => node label pos (parts ++ [part])

theorem lines_withPart (text : α → String) (level : Nat) (t part : OutlineTree α) :
    (t.withPart part).lines text level = t.lines text level ++ part.lines text (level + 1) := by
  cases t with
  | node label pos parts => simp [withPart, lines, linesAll, linesAll_append]

theorem all_withPart {good : α → Prop} {t part : OutlineTree α} :
    (t.withPart part).All good ↔ t.All good ∧ part.All good := by
  cases t with
  | node label pos parts =>
    simp only [withPart, All, allIn_iff, List.forall_mem_append, List.forall_mem_singleton, and_assoc]

end OutlineTree

namespace Node

/-- What an outline says of a node apart from its parts, unwritten. -/
def head : Node → NodeHead
  | constant _ value => .constant value
  | name _ s => .name s
  | block _ _ => .block
  | statement _ _ => .statement
  | assign _ _ _ => .assign
  | call _ callee _ => .call callee.item
  | binary _ _ op _ => .binary op
  | unary _ op _ => .unary op
  | logical _ _ op _ => .logical op
  | conditional _ _ _ _ => .conditional
  | index _ _ _ => .index
  | object _ _ => .object
  | array _ _ => .array
  | whileLoop _ _ _ retain => .whileLoop retain
  | countLoop _ counter _ _ direction _ _ retain => .countLoop counter.item direction retain
  | eachLoop _ (.single element) _ _ retain => .eachLoop element.item retain
  | eachLoop _ (.pair first second) _ _ retain => .eachPairLoop first.item second.item retain
  | breakLoop _ => .breakLoop
  | continueLoop _ => .continueLoop
  | returnValue _ _ => .returnValue

theorem label_head (n : Node) : n.head.label = n.label := by
  apply String.toList_injective
  cases n with
  | eachLoop _ target _ _ _ =>
    cases target <;> simp [head, label, NodeHead.label, NodeHead.word, NodeHead.note, targetLabel]
  | _ => simp [head, label, NodeHead.label, NodeHead.word, NodeHead.note]

mutual

/-- The tree of labels of a node. The value of a property is the last part of its key. -/
def tree (n : Node) : OutlineTree NodeHead :=
  .node n.head n.loc.pos (match n with
    | constant _ _ | name _ _ | breakLoop _ | continueLoop _ | returnValue _ none => []
    | block _ body => treeAll body
    | statement _ value => [value.tree]
    | assign _ target value => [target.tree, value.tree]
    | call _ _ args => treeAll args
    | binary _ left _ right | logical _ left _ right => [left.tree, right.tree]
    | unary _ _ operand => [operand.tree]
    | conditional _ condition thenBranch none => [condition.tree, thenBranch.tree]
    | conditional _ condition thenBranch (some elseBranch) =>
      [condition.tree, thenBranch.tree, elseBranch.tree]
    | index _ owner key => [owner.tree, key.tree]
    | object _ properties => treePairs properties
    | array _ items => treeAll items
    | whileLoop _ condition body _ => [condition.tree, body.tree]
    | countLoop _ _ start bound _ step body _ => [start.tree, bound.tree, step.tree, body.tree]
    | eachLoop _ _ collection body _ => [collection.tree, body.tree]
    | returnValue _ (some value) => [value.tree])

/-- The trees of labels of several nodes. -/
def treeAll : List Node → List (OutlineTree NodeHead)
  | [] => []
  | n :: ns => n.tree :: treeAll ns

/-- The trees of labels of properties. -/
def treePairs : List (Node × Node) → List (OutlineTree NodeHead)
  | [] => []
  | (key, value) :: ps => key.tree.withPart value.tree :: treePairs ps

end

mutual

/-- The outline of a node is the layout of its tree. -/
theorem lines_tree : ∀ (n : Node) (level : Nat), n.tree.lines NodeHead.label level = n.outline level
  | constant _ _, _ | name _ _, _ | breakLoop _, _ | continueLoop _, _ | returnValue _ none, _ => by
    simp [tree, outline, OutlineTree.lines, OutlineTree.linesAll, label_head]
  | block _ body, level | call _ _ body, level | array _ body, level => by
    simp [tree, outline, OutlineTree.lines, label_head, linesAll_treeAll body]
  | object _ properties, level => by
    simp [tree, outline, OutlineTree.lines, label_head, linesAll_treePairs properties]
  | statement _ value, _ | unary _ _ value, _ | returnValue _ (some value), _ => by
    simp [tree, outline, OutlineTree.lines, OutlineTree.linesAll, label_head, lines_tree value]
  | assign _ left right, _ | binary _ left _ right, _ | logical _ left _ right, _
  | conditional _ left right none, _ | index _ left right, _ | whileLoop _ left right _, _
  | eachLoop _ _ left right _, _ => by
    simp [tree, outline, OutlineTree.lines, OutlineTree.linesAll, label_head, lines_tree left,
      lines_tree right]
  | conditional _ condition thenBranch (some elseBranch), _ => by
    simp [tree, outline, OutlineTree.lines, OutlineTree.linesAll, label_head, lines_tree condition,
      lines_tree thenBranch, lines_tree elseBranch]
  | countLoop _ _ start bound _ step body _, _ => by
    simp [tree, outline, OutlineTree.lines, OutlineTree.linesAll, label_head, lines_tree start,
      lines_tree bound, lines_tree step, lines_tree body]

theorem linesAll_treeAll : ∀ (ns : List Node) (level : Nat),
    OutlineTree.linesAll NodeHead.label level (treeAll ns) = outlineAll level ns
  | [], _ => rfl
  | n :: ns, level => by
    rw [treeAll, OutlineTree.linesAll, outlineAll, lines_tree n, linesAll_treeAll ns]

theorem linesAll_treePairs : ∀ (ps : List (Node × Node)) (level : Nat),
    OutlineTree.linesAll NodeHead.label level (treePairs ps) = outlineProperties level ps
  | [], _ => rfl
  | (key, value) :: ps, level => by
    rw [treePairs, OutlineTree.linesAll, outlineProperties, OutlineTree.lines_withPart,
      lines_tree key, lines_tree value, linesAll_treePairs ps]

end

end Node

/-! ## Programs from trees -/

/-- What a tree of labels stands for. -/
structure Recovered where
  /-- The node with these labels. -/
  node : Node
  /-- The property of which it is the key, with the value for its last part. -/
  property : Node × Node

/-- The node with a head, a position and parts. -/
def NodeHead.build (h : NodeHead) (pos : Position) (parts : List Recovered) : Node :=
  let l : Location := ⟨default, pos⟩
  match h, parts with
  | constant value, _ => .constant l value
  | name s, _ => .name l s
  | block, parts => .block l (parts.map Recovered.node)
  | statement, [value] => .statement l value.node
  | assign, [target, value] => .assign l target.node value.node
  | call callee, args => .call l ⟨callee, default⟩ (args.map Recovered.node)
  | binary op, [left, right] => .binary l left.node op right.node
  | unary op, [operand] => .unary l op operand.node
  | logical op, [left, right] => .logical l left.node op right.node
  | conditional, [condition, thenBranch] => .conditional l condition.node thenBranch.node none
  | conditional, [condition, thenBranch, elseBranch] =>
    .conditional l condition.node thenBranch.node (some elseBranch.node)
  | index, [owner, key] => .index l owner.node key.node
  | object, properties => .object l (properties.map Recovered.property)
  | array, items => .array l (items.map Recovered.node)
  | whileLoop retain, [condition, body] => .whileLoop l condition.node body.node retain
  | countLoop counter direction retain, [start, bound, step, body] =>
    .countLoop l ⟨counter, default⟩ start.node bound.node direction step.node body.node retain
  | eachLoop element retain, [collection, body] =>
    .eachLoop l (.single ⟨element, default⟩) collection.node body.node retain
  | eachPairLoop first second retain, [collection, body] =>
    .eachLoop l (.pair ⟨first, default⟩ ⟨second, default⟩) collection.node body.node retain
  | breakLoop, _ => .breakLoop l
  | continueLoop, _ => .continueLoop l
  | returnValue, [] => .returnValue l none
  | returnValue, [value] => .returnValue l (some value.node)
  | _, _ => default

namespace OutlineTree

mutual

/-- What a tree of labels stands for. -/
def recover : OutlineTree NodeHead → Recovered
  | node h pos parts =>
    { node := h.build pos (recoverAll parts)
      property := (h.build pos (recoverAll parts).dropLast,
        ((recoverAll parts).getLast?.map Recovered.node).getD default) }

/-- What several trees of labels stand for. -/
def recoverAll : List (OutlineTree NodeHead) → List Recovered
  | [] => []
  | t :: ts => t.recover :: recoverAll ts

end

theorem recoverAll_append (ts us : List (OutlineTree NodeHead)) :
    recoverAll (ts ++ us) = recoverAll ts ++ recoverAll us := by
  induction ts with
  | nil => rfl
  | cons t ts ih => rw [List.cons_append, recoverAll, ih, recoverAll, List.cons_append]

theorem property_recover_withPart (t part : OutlineTree NodeHead) :
    (t.withPart part).recover.property = (t.recover.node, part.recover.node) := by
  cases t with
  | node h pos parts => simp [withPart, recover, recoverAll_append, recoverAll]

end OutlineTree

namespace Node

open OutlineTree (recoverAll)

mutual

/-- The tree of a node stands for it, up to what an outline leaves out. -/
theorem recover_tree : ∀ n : Node, n.tree.recover.node = n.withoutSpans
  | constant _ _ | name _ _ | breakLoop _ | continueLoop _ | returnValue _ none => rfl
  | block _ body | call _ _ body | array _ body => by
    simp only [tree, OutlineTree.recover, head, NodeHead.build, recover_treeAll body, withoutSpans]
    rfl
  | object _ properties => by
    simp only [tree, OutlineTree.recover, head, NodeHead.build, recover_treePairs properties,
      withoutSpans]
    rfl
  | statement _ value | unary _ _ value | returnValue _ (some value) => by
    simp only [tree, OutlineTree.recover, recoverAll, head, NodeHead.build, recover_tree value,
      withoutSpans]
    rfl
  | assign _ left right | binary _ left _ right | logical _ left _ right
  | conditional _ left right none | index _ left right | whileLoop _ left right _
  | eachLoop _ (.single _) left right _ | eachLoop _ (.pair _ _) left right _ => by
    simp only [tree, OutlineTree.recover, recoverAll, head, NodeHead.build, recover_tree left,
      recover_tree right, withoutSpans]
    rfl
  | conditional _ condition thenBranch (some elseBranch) => by
    simp only [tree, OutlineTree.recover, recoverAll, head, NodeHead.build, recover_tree condition,
      recover_tree thenBranch, recover_tree elseBranch, withoutSpans]
    rfl
  | countLoop _ _ start bound _ step body _ => by
    simp only [tree, OutlineTree.recover, recoverAll, head, NodeHead.build, recover_tree start,
      recover_tree bound, recover_tree step, recover_tree body, withoutSpans]
    rfl

theorem recover_treeAll : ∀ ns : List Node,
    (recoverAll (treeAll ns)).map Recovered.node = withoutSpansAll ns
  | [] => rfl
  | n :: ns => by
    rw [treeAll, recoverAll, List.map_cons, recover_tree n, recover_treeAll ns, withoutSpansAll]

theorem recover_treePairs : ∀ ps : List (Node × Node),
    (recoverAll (treePairs ps)).map Recovered.property = withoutSpansPairs ps
  | [] => rfl
  | (key, value) :: ps => by
    rw [treePairs, recoverAll, List.map_cons, OutlineTree.property_recover_withPart,
      recover_tree key, recover_tree value, recover_treePairs ps, withoutSpansPairs]

end

end Node

/-! ## Programs with readable labels -/

namespace Node

/-- All names in the tree are identifiers. -/
def Worded (n : Node) : Prop :=
  n.tree.All NodeHead.Worded

theorem worded_relocate (l : Location) (n : Node) : (n.relocate l).Worded ↔ n.Worded := by
  cases n with
  | conditional _ _ _ elseBranch => cases elseBranch <;> exact Iff.rfl
  | eachLoop _ target _ _ _ => cases target <;> exact Iff.rfl
  | returnValue _ value => cases value <;> exact Iff.rfl
  | _ => exact Iff.rfl

theorem allIn_treeAll {ns : List Node} (worded : ∀ n ∈ ns, n.Worded) :
    OutlineTree.AllIn NodeHead.Worded (treeAll ns) := by
  induction ns with
  | nil => trivial
  | cons n ns ih =>
    obtain ⟨first, rest⟩ := List.forall_mem_cons.1 worded
    exact ⟨first, ih rest⟩

theorem allIn_treePairs {ps : List (Node × Node)}
    (worded : ∀ p ∈ ps, p.1.Worded ∧ p.2.Worded) :
    OutlineTree.AllIn NodeHead.Worded (treePairs ps) := by
  induction ps with
  | nil => trivial
  | cons p ps ih =>
    obtain ⟨first, rest⟩ := List.forall_mem_cons.1 worded
    exact ⟨OutlineTree.all_withPart.2 first, ih rest⟩

/-- The rules put together trees in which all names are identifiers. -/
theorem shapes_worded : Shapes (isIdentifier · = true) fun _ _ n => n.Worded where
  constant _ := ⟨.nameless rfl, trivial⟩
  name named := ⟨.named rfl named, trivial⟩
  block _ all := ⟨.nameless rfl, allIn_treeAll all⟩
  statement worded := ⟨.nameless rfl, worded, trivial⟩
  assign _ target value := ⟨.nameless rfl, target, value, trivial⟩
  call named all := ⟨.named rfl named, allIn_treeAll all⟩
  binary left right := ⟨.nameless rfl, left, right, trivial⟩
  unary operand := ⟨.nameless rfl, operand, trivial⟩
  logical left right := ⟨.nameless rfl, left, right, trivial⟩
  conditional {_ _ _ _ _ no} test yes worded := by
    cases no with
    | none => exact ⟨.nameless rfl, test, yes, trivial⟩
    | some no => exact ⟨.nameless rfl, test, yes, worded no rfl, trivial⟩
  index owner key := ⟨.nameless rfl, owner, key, trivial⟩
  object all := ⟨.nameless rfl, allIn_treePairs all⟩
  array all := ⟨.nameless rfl, allIn_treeAll all⟩
  whileLoop _ test body := ⟨.nameless rfl, test, body, trivial⟩
  countLoop _ named start bound step body :=
    ⟨.named rfl named, start, bound, step, body, trivial⟩
  eachLoop {_ _ _ target _ _} named collection body := by
    cases target with
    | single element =>
      exact ⟨.named rfl (named element (.head _)), collection, body, trivial⟩
    | pair first second =>
      have all : (NodeHead.eachPairLoop first.item second.item true).Worded := by
        simpa [NodeHead.Worded, NodeHead.names, LoopTarget.names] using named
      exact ⟨all, collection, body, trivial⟩
  breakLoop := ⟨.nameless rfl, trivial⟩
  continueLoop := ⟨.nameless rfl, trivial⟩
  returnValue {_ _ value} worded := by
    cases value with
    | none => exact ⟨.nameless rfl, trivial⟩
    | some value => exact ⟨.nameless rfl, worded value rfl, trivial⟩
  relocate l worded := (worded_relocate l _).2 worded
  branch worded := worded
  named worded := worded.1 _ (.head _)
  assigned worded := ⟨worded.2.1, worded.2.2.1⟩

/-- The outline of some nodes tells them apart from others, up to what it leaves out. -/
theorem withoutSpans_of_outlineAll {level : Nat} {ns ms : List Node} (worded : ∀ n ∈ ns, n.Worded)
    (worded' : ∀ m ∈ ms, m.Worded)
    (same : (outlineAll level ns).flatMap (fun l => l.text.toList) =
      (outlineAll level ms).flatMap fun l => l.text.toList) :
    ns.map withoutSpans = ms.map withoutSpans := by
  have labels : ∀ {ks : List Node}, (∀ k ∈ ks, k.Worded) →
      ∀ l ∈ outlineAll level ks, IsLabel l.label := by
    intro ks worded l member
    rw [← linesAll_treeAll] at member
    exact OutlineTree.label_of_mem_linesAll (fun good => NodeHead.isLabel good) (treeAll ks)
      (allIn_treeAll worded) member
  have lines := OutlineLine.texts_injective (labels worded) (labels worded') same
  have nothing : OutlineTree.Above level [] := by simp [OutlineTree.Above]
  have trees : treeAll ns = treeAll ms := by
    rw [← linesAll_treeAll, ← linesAll_treeAll, ← List.append_nil (OutlineTree.linesAll _ _ _),
      ← List.append_nil (OutlineTree.linesAll _ _ (treeAll ms))] at lines
    exact (OutlineTree.linesAll_injective
      (fun good good' label => NodeHead.label_injective good good' label) (treeAll ns) (treeAll ms)
      (allIn_treeAll worded) (allIn_treeAll worded') nothing nothing lines).1
  rw [← withoutSpansAll_eq_map, ← withoutSpansAll_eq_map, ← recover_treeAll, trees, recover_treeAll]

end Node

/-! ## Accepted programs -/

/-- The token of a proper lexeme is readable in every dictionary. -/
theorem Lexeme.Proper.readable {l : Lexeme} (proper : l.Proper) {d : Dictionary} {kind : TokenKind}
    (read : Token.kindOf d l = .ok kind) : kind.Readable (isIdentifier · = true) := by
  obtain ⟨lexical, text⟩ := l
  cases lexical with
  | word =>
    unfold Token.kindOf at read
    dsimp only at read
    cases found : d.lookup (String.ofList text) with
    | some k =>
      rw [found] at read
      cases read
      trivial
    | none =>
      rw [found] at read
      cases read
      exact proper
  | number n =>
    cases n with
    | int n =>
      cases read
      exact proper
    | float x =>
      cases read
      exact proper
  | faulty fault => cases read
  | _ =>
    cases read
    trivial

namespace Program

/-- All names of an accepted program are identifiers. -/
theorem worded_of_parse {languages : Languages} {source name : String} {p : Program}
    (accepted : parse languages source name = .ok p) : ∀ n ∈ p.body, n.Worded :=
  Node.shapes_worded.of_parse accepted fun tokens read token member => by
    obtain ⟨l, proper, known⟩ := Reading.exists_proper read member
    exact proper.readable known

theorem toList_outline (p : Program) : p.outline.toList =
    ("Root " ++ p.name ++ "\n").toList ++
      (Node.outlineAll 1 p.body).flatMap fun l => l.text.toList := by
  have written : ∀ (ls : List OutlineLine) (out : String),
      (ls.foldl (fun out l => out ++ l.text) out).toList =
        out.toList ++ ls.flatMap fun l => l.text.toList := by
    intro ls
    induction ls with
    | nil => simp
    | cons l ls ih =>
      intro out
      rw [List.foldl_cons, ih, String.toList_append, List.append_assoc, List.flatMap_cons]
  exact written _ _

/-- Accepted programs with the same name and the same outline are the same but for the bytes that
their nodes take and for where the names stand in calls and in the headers of loops. -/
theorem withoutSpans_of_outline {languages languages' : Languages}
    {source source' name name' : String} {p q : Program}
    (accepted : parse languages source name = .ok p)
    (accepted' : parse languages' source' name' = .ok q) (named : p.name = q.name)
    (same : p.outline = q.outline) :
    p.body.map Node.withoutSpans = q.body.map Node.withoutSpans := by
  have chars := congrArg String.toList same
  rw [toList_outline, toList_outline, named] at chars
  exact Node.withoutSpans_of_outlineAll (worded_of_parse accepted) (worded_of_parse accepted')
    (List.append_cancel_left chars)

/-- A script after a comment. -/
def commented : String := "#* e *# total = f(x, \x7ba: [1, -2]\x7d)"

/-- The same script after a comment with a letter of two bytes. -/
def commentedAccented : String := "#* é *# total = f(x, \x7ba: [1, -2]\x7d)"

/-- The two scripts take different bytes, which their outlines do not show. -/
theorem withoutSpans_of_outline_commented : ∃ p q, parse .builtin commented = .ok p ∧
    parse .builtin commentedAccented = .ok q ∧ p.outline = q.outline ∧
    p.body.map Node.loc ≠ q.body.map Node.loc ∧
    p.body.map Node.withoutSpans = q.body.map Node.withoutSpans := by
  obtain ⟨p, accepted⟩ : ∃ p, parse .builtin commented = .ok p := exists_of_isOk (by decide +kernel)
  obtain ⟨q, accepted'⟩ : ∃ q, parse .builtin commentedAccented = .ok q :=
    exists_of_isOk (by decide +kernel)
  have outlines : (parse .builtin commented).toOption.map outline =
      (parse .builtin commentedAccented).toOption.map outline := by
    decide +kernel
  have names : (parse .builtin commented).toOption.map Program.name =
      (parse .builtin commentedAccented).toOption.map Program.name := by
    decide +kernel
  have apart : (parse .builtin commented).toOption.map (fun p => p.body.map Node.loc) ≠
      (parse .builtin commentedAccented).toOption.map fun p => p.body.map Node.loc := by
    decide +kernel
  rw [accepted, accepted'] at outlines names apart
  have same := Option.some.inj outlines
  exact ⟨p, q, accepted, accepted', same, fun locs => apart (congrArg some locs),
    withoutSpans_of_outline accepted accepted' (Option.some.inj names) same⟩

end Program

end Polyglot
