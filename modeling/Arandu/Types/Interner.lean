import Arandu.Amir.Types

/-!
# The type interner

`types/type_interner.rs`: types are stored in the order in which they were interned and name their
component types by id; the arguments of named, function and tuple types are ranges of a pool of
their own. A type only names types interned before it, so that recursion over types ends.
-/

namespace Arandu.Types

open Arandu.Amir

/-! ## Components of a type -/

/-- The argument ranges of a type. -/
def rangesOf : ArType → List DenseRange
  | .named _ args => [args]
  | .func params _ => [params]
  | .tuple elems => [elems]
  | _ => []

variable (pool : List TypeId)

/-- `TypeArgsPool::get`. -/
def argsOf (range : DenseRange) : List TypeId :=
  (pool.drop range.start).take range.len

/-- The ids of the component types in order; the result of a function type is the last one. -/
def childrenOf : ArType → List TypeId
  | .named _ args => argsOf pool args
  | .func params ret => argsOf pool params ++ [ret]
  | .nullable inner | .slice inner | .mutSlice inner | .array _ inner | .constArray _ inner
  | .ptr inner | .ref inner | .refMut inner | .option inner | .coroutine inner | .poll inner
  | .range inner => [inner]
  | .tuple elems => argsOf pool elems
  | .result ok err => [ok, err]
  | _ => []

/-- A type without its components: the constructor, its other data and the number of arguments. -/
def shapeOf : ArType → ArType
  | .named sym args => .named sym ⟨0, args.len⟩
  | .func params _ => .func ⟨0, params.len⟩ 0
  | .nullable _ => .nullable 0
  | .slice _ => .slice 0
  | .mutSlice _ => .mutSlice 0
  | .array len _ => .array len 0
  | .constArray len _ => .constArray len 0
  | .ptr _ => .ptr 0
  | .ref _ => .ref 0
  | .refMut _ => .refMut 0
  | .option _ => .option 0
  | .coroutine _ => .coroutine 0
  | .poll _ => .poll 0
  | .range _ => .range 0
  | .tuple elems => .tuple ⟨0, elems.len⟩
  | .result _ _ => .result 0 0
  | ty => ty

/-- The ranges of the type are in the pool and its components are below the bound. -/
def Admits (bound : Nat) (ty : ArType) : Prop :=
  (∀ range ∈ rangesOf ty, range.start + range.len ≤ pool.length) ∧
    ∀ child ∈ childrenOf pool ty, child < bound

instance (pool : List TypeId) (bound : Nat) (ty : ArType) : Decidable (Admits pool bound ty) :=
  inferInstanceAs (Decidable (_ ∧ _))

/-! ## The interner -/

/-- `TypeInterner`: each type after its components. -/
structure Interner extends TypeInterner where
  pool : List TypeId
  admitted : ∀ entry ∈ types.zipIdx, Admits pool entry.2 entry.1

namespace Interner

variable (interner : Interner)

def typeArgs (range : DenseRange) : List TypeId := argsOf interner.pool range

def children (ty : ArType) : List TypeId := childrenOf interner.pool ty

/-- The type can be used with the interner. -/
def Valid (ty : ArType) : Prop := Admits interner.pool interner.types.length ty

/-- A bound on the ids below the type. -/
def rank (ty : ArType) : Nat := (interner.children ty).foldr (fun child n => max (child + 1) n) 0

variable {interner} {ty : ArType} {id : TypeId}

lemma lt_rank (h : id ∈ interner.children ty) : id < interner.rank ty := by
  unfold rank
  generalize interner.children ty = children at h
  induction children with
  | nil => cases h
  | cons child rest ih =>
    rcases List.mem_cons.1 h with rfl | hrest
    · exact Nat.lt_of_lt_of_le (Nat.lt_succ_self _) (Nat.le_max_left _ _)
    · exact Nat.lt_of_lt_of_le (ih hrest) (Nat.le_max_right _ _)

lemma rank_le {bound : Nat} (h : ∀ child ∈ interner.children ty, child < bound) :
    interner.rank ty ≤ bound := by
  unfold rank
  generalize interner.children ty = children at h
  induction children with
  | nil => exact Nat.zero_le _
  | cons child rest ih =>
    exact Nat.max_le.2 ⟨h child List.mem_cons_self, ih fun c hc => h c (List.mem_cons_of_mem _ hc)⟩

lemma resolve_admits (h : id < interner.types.length) :
    Admits interner.pool id (interner.resolve id) := by
  apply interner.admitted (interner.resolve id, id)
  rw [List.mem_zipIdx_iff_getElem?]
  simp [TypeInterner.resolve, h]

lemma resolve_valid (h : id < interner.types.length) : interner.Valid (interner.resolve id) :=
  ⟨(resolve_admits h).1, fun child hchild =>
    Nat.lt_trans ((resolve_admits h).2 child hchild) h⟩

lemma Valid.child (h : interner.Valid ty) (hid : id ∈ interner.children ty) :
    interner.Valid (interner.resolve id) :=
  resolve_valid (h.2 id hid)

lemma Valid.rank_child_lt (h : interner.Valid ty) (hid : id ∈ interner.children ty) :
    interner.rank (interner.resolve id) < interner.rank ty :=
  Nat.lt_of_le_of_lt (rank_le (resolve_admits (h.2 id hid)).2) (lt_rank hid)

lemma Valid.rank_le (h : interner.Valid ty) : interner.rank ty ≤ interner.types.length :=
  Interner.rank_le h.2

/-- The type and all types below it have a property. -/
inductive Everywhere (interner : Interner) (P : ArType → Prop) : ArType → Prop
  | intro {ty : ArType} (here : P ty)
      (below : ∀ child ∈ interner.children ty, Everywhere interner P (interner.resolve child)) :
      Everywhere interner P ty

variable {P : ArType → Prop}

lemma Everywhere.here (h : interner.Everywhere P ty) : P ty := by
  cases h with
  | intro here below => exact here

lemma Everywhere.child (h : interner.Everywhere P ty) (hid : id ∈ interner.children ty) :
    interner.Everywhere P (interner.resolve id) := by
  cases h with
  | intro here below => exact below id hid

lemma Everywhere.of_types (htypes : ∀ id < interner.types.length, P (interner.resolve id))
    (h : interner.Valid ty) (hty : P ty) : interner.Everywhere P ty := by
  induction hn : interner.rank ty using Nat.strongRecOn generalizing ty with
  | ind n ih =>
    refine .intro hty fun child hchild => ?_
    exact ih _ (hn ▸ h.rank_child_lt hchild) (h.child hchild) (htypes _ (h.2 child hchild)) rfl

end Interner

end Arandu.Types
