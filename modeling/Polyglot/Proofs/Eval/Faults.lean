import Polyglot.Value.Operators

/-!
# Faults of operators

Operators and indexing fail because of the values they are applied to. None of their faults is
internal, and none has to do with how long a script runs.
-/

namespace Polyglot

/-- The classes of faults that come from the values a script works on. -/
def FaultKind.ofValues : FaultKind → Bool
  | typeError | divisionByZero | outOfBounds | notIndexable | notIterable | notSplittable
  | sizeLimit => true
  | host | cancelled | iterationLimit | internal => false

theorem FaultKind.ne_of_ofValues {kind other : FaultKind} (values : kind.ofValues = true)
    (notValues : other.ofValues = false) : kind ≠ other := by
  rintro rfl
  rw [values] at notValues
  cases notValues

namespace Value

theorem kind_of_repeated {s : String} {n : Value} {fault : RuntimeFault}
    (h : repeated s n = .error fault) : fault.kind.ofValues = true := by
  unfold repeated at h
  split at h
  · cases h
  · split at h
    · cases h; rfl
    · split at h
      · cases h; rfl
      · split at h <;> cases h; rfl

theorem kind_of_inapplicable {α : Type} {op : BinaryOp} {a b : Value} {fault : RuntimeFault}
    (h : (inapplicable op a b : Except RuntimeFault α) = .error fault) :
    fault.kind.ofValues = true := by
  cases h
  rfl

theorem kind_of_arithmetic {op : BinaryOp} {onInts : Int64 → Int64 → Int64}
    {onFloats : Float → Float → Float} {a b : Value} {fault : RuntimeFault}
    (h : arithmetic op onInts onFloats a b = .error fault) : fault.kind.ofValues = true := by
  unfold arithmetic at h
  split at h
  · cases h
  · split at h
    · cases h
    · exact kind_of_inapplicable h

theorem kind_of_division {op : BinaryOp} {onInts : Int64 → Int64 → Int64}
    {onFloats : Float → Float → Float} {a b : Value} {fault : RuntimeFault}
    (h : division op onInts onFloats a b = .error fault) : fault.kind.ofValues = true := by
  unfold division at h
  split at h
  · cases h; rfl
  · exact kind_of_arithmetic h

theorem kind_of_comparison {op : BinaryOp} {holds : Float → Float → Bool} {a b : Value}
    {fault : RuntimeFault} (h : comparison op holds a b = .error fault) :
    fault.kind.ofValues = true := by
  unfold comparison at h
  split at h
  · cases h
  · exact kind_of_inapplicable h

end Value

namespace Heap

open Value

theorem kind_of_add {heap : Heap} {a b : Value} {fault : RuntimeFault}
    (h : heap.add a b = .error fault) : fault.kind.ofValues = true := by
  unfold add at h
  split at h
  · exact kind_of_arithmetic h
  · cases h

theorem kind_of_multiply {a b : Value} {fault : RuntimeFault}
    (h : multiply a b = .error fault) : fault.kind.ofValues = true := by
  unfold multiply at h
  split at h
  · split at h
    · exact kind_of_repeated h
    · exact kind_of_inapplicable h
  · split at h
    · exact kind_of_repeated h
    · exact kind_of_inapplicable h
  · exact kind_of_arithmetic h

theorem kind_of_binary {heap : Heap} {op : BinaryOp} {a b : Value} {fault : RuntimeFault}
    (h : heap.binary op a b = .error fault) : fault.kind.ofValues = true := by
  cases op with
  | add => exact kind_of_add h
  | sub => exact kind_of_arithmetic h
  | mul => exact kind_of_multiply h
  | div | mod => exact kind_of_division h
  | eq | ne => cases h
  | lt | gt | le | ge => exact kind_of_comparison h

theorem kind_of_unary {op : UnaryOp} {v : Value} {fault : RuntimeFault}
    (h : unary op v = .error fault) : fault.kind.ofValues = true := by
  unfold unary at h
  split at h <;> cases h
  rfl

theorem kind_of_indexGet {heap : Heap} {owner key : Value} {fault : RuntimeFault}
    (h : heap.indexGet owner key = .error fault) : fault.kind.ofValues = true := by
  unfold indexGet at h
  split at h <;> cases h
  rfl

theorem kind_of_indexSet {heap : Heap} {owner key value : Value} {fault : RuntimeFault}
    (h : heap.indexSet owner key value = .error fault) : fault.kind.ofValues = true := by
  unfold indexSet at h
  split at h
  · split at h
    · cases h; rfl
    · dsimp only at h
      split at h <;> cases h
      rfl
  · cases h
  · cases h; rfl

end Heap

end Polyglot
