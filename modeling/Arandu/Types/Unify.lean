import Mathlib.Data.List.Forall2
import Arandu.Types.Interner

/-!
# Unification and assignability

`unify` and `is_assignable` of `types/unify.rs`. Both call themselves on component types, which are
below their type in the interner; `unifyBody` and `isAssignableBody` are the bodies, with the
recursive calls as an argument, and the functions are what the bodies compute with enough
unfoldings.
-/

namespace Arandu.Types

open Arandu.Amir List

variable {f : ArType → ArType → Bool} {a b : ArType}

namespace Interner

variable (interner : Interner)

def isLiteral : ArType → Bool
  | .intLiteral | .floatLiteral => true
  | _ => false

/-- `u8` and `byte` are interchangeable. -/
def samePrimitive (p q : Primitive) : Bool :=
  decide (p = q) || decide (p = .u8 ∧ q = .byte) || decide (p = .byte ∧ q = .u8)

/-- The pairs of arguments of two ranges satisfy the test. -/
def allArgs (r r' : DenseRange) (test : TypeId → TypeId → Bool) : Bool :=
  decide (r.len = r'.len) &&
    ((interner.typeArgs r).zip (interner.typeArgs r')).all fun pair => test pair.1 pair.2

/-! ## unify -/

/-- `unify`, with its recursive calls. -/
def unifyBody (unify : ArType → ArType → Bool) (a b : ArType) : Bool :=
  let unifyIds : TypeId → TypeId → Bool := fun x y =>
    decide (x = y) || unify (interner.resolve x) (interner.resolve y)
  if a.isError || b.isError then true
  else if decide (a = .primitive .any) || decide (b = .primitive .any) then true
  else if isLiteral a && a.literalAbsorbs b then true
  else if isLiteral b && b.literalAbsorbs a then true
  else if isLiteral a && isLiteral b then true
  else
    match a, b with
    | .vector v, .vector w => decide (v = w)
    | .ref inner, .primitive p | .refMut inner, .primitive p | .primitive p, .ref inner
    | .primitive p, .refMut inner =>
      decide (p = .str) && decide (interner.resolve inner = .primitive .str)
    | .primitive p, .primitive q => samePrimitive p q
    | .named sym args, .named sym' args' =>
      decide (sym = sym') && interner.allArgs args args' unifyIds
    | .func params ret, .func params' ret' =>
      interner.allArgs params params' unifyIds && unifyIds ret ret'
    | .array n elem, .array n' elem' => decide (n = n') && unifyIds elem elem'
    | .nullable inner, .nullable inner' | .slice inner, .slice inner'
    | .mutSlice inner, .mutSlice inner' | .ptr inner, .ptr inner' | .ref inner, .ref inner'
    | .refMut inner, .refMut inner' | .option inner, .option inner'
    | .coroutine inner, .coroutine inner' | .poll inner, .poll inner'
    | .range inner, .range inner' => unifyIds inner inner'
    | .tuple elems, .tuple elems' => interner.allArgs elems elems' unifyIds
    | .result ok err, .result ok' err' => unifyIds ok ok' && unifyIds err err'
    | .genRef, .genRef | .err, .err | .void, .void => true
    | _, _ => false

def unifyFuel : Nat → ArType → ArType → Bool
  | 0, _, _ => false
  | fuel + 1, a, b => interner.unifyBody (unifyFuel fuel) a b

/-- Components are below their type, so that the unfoldings suffice. -/
def unify (a b : ArType) : Bool := interner.unifyFuel (interner.types.length + 1) a b

/-! ## is_assignable -/

variable (assignable : ArType → ArType → Bool)

/-- The match at the end of `is_assignable`. -/
def isAssignableMatch (actual expected : ArType) : Bool :=
  let assignableIds : TypeId → TypeId → Bool := fun x y =>
    decide (x = y) || assignable (interner.resolve x) (interner.resolve y)
  match actual, expected with
  | .primitive p, .primitive q => samePrimitive p q
  | .named sym args, .named sym' args' =>
    decide (sym = sym') && interner.allArgs args args' assignableIds
  | .func params ret, .func params' ret' =>
    interner.allArgs params params'
        (fun x y => interner.unify (interner.resolve x) (interner.resolve y)) &&
      assignable (interner.resolve ret) (interner.resolve ret')
  | .mutSlice inner, .mutSlice inner' => decide (inner = inner')
  | .array n elem, .array n' elem' => decide (n = n') && assignableIds elem elem'
  | .slice inner, .slice inner' | .mutSlice inner, .slice inner' | .ptr inner, .ptr inner'
  | .ref inner, .ref inner' | .refMut inner, .refMut inner' | .option inner, .option inner'
  | .coroutine inner, .coroutine inner' | .poll inner, .poll inner'
  | .range inner, .range inner' => assignableIds inner inner'
  | .tuple elems, .tuple elems' => interner.allArgs elems elems' assignableIds
  | .result ok err, .result ok' err' => assignableIds ok ok' && assignableIds err err'
  | _, _ => false

/-- From the coercion of `ref str` on. -/
def isAssignableRest (actual expected : ArType) : Bool :=
  let derefsToStr : Bool :=
    match actual with
    | .ref inner | .refMut inner =>
      decide (expected = .primitive .str) && decide (interner.resolve inner = .primitive .str)
    | _ => false
  if derefsToStr then true
  else if isLiteral actual && actual.literalAbsorbs expected then true
  else if isLiteral expected && expected.literalAbsorbs actual then true
  else if isLiteral actual && isLiteral expected then true
  else interner.isAssignableMatch assignable actual expected

/-- `is_assignable`, with its recursive calls. -/
def isAssignableBody (actual expected : ArType) : Bool :=
  if actual.isError || expected.isError then true
  else if decide (actual = .primitive .any) || decide (expected = .primitive .any) then true
  else if actual = expected then true
  else
    match expected with
    | .nullable innerExpected =>
      match actual with
      | .nullable innerActual =>
        assignable (interner.resolve innerActual) (interner.resolve innerExpected)
      | _ =>
        if assignable actual (interner.resolve innerExpected) then true
        else interner.isAssignableRest assignable actual expected
    | .ref innerExpected =>
      match actual with
      | .refMut innerActual =>
        assignable (interner.resolve innerActual) (interner.resolve innerExpected)
      | _ => interner.isAssignableRest assignable actual expected
    | _ => interner.isAssignableRest assignable actual expected

def isAssignableFuel : Nat → ArType → ArType → Bool
  | 0, _, _ => false
  | fuel + 1, actual, expected =>
    interner.isAssignableBody (isAssignableFuel fuel) actual expected

def isAssignable (actual expected : ArType) : Bool :=
  interner.isAssignableFuel (2 * interner.types.length + 2) actual expected

/-! ## What one unfolding decides

The relations are parameters, so that the same description holds of every number of unfoldings. -/

/-- Neither poison nor `any` nor a literal. -/
def Plain (ty : ArType) : Prop :=
  ty.isError = false ∧ ty ≠ .primitive .any ∧ isLiteral ty = false

instance (ty : ArType) : Decidable (Plain ty) := inferInstanceAs (Decidable (_ ∧ _))

/-- Types that unify when their components do. -/
def isUnifiable : ArType → Bool
  | .primitive _ | .constArray .. | .const _ | .frozenConst _ | .constParam _ | .intLiteral
  | .floatLiteral | .error => false
  | _ => true

/-- Types that are covariant in their components. -/
def isCovariant : ArType → Bool
  | .named .. | .nullable _ | .slice _ | .array .. | .ptr _ | .ref _ | .refMut _ | .tuple _
  | .result .. | .option _ | .coroutine _ | .poll _ | .range _ => true
  | _ => false

def Related (R : ArType → ArType → Prop) (xs ys : List TypeId) : Prop :=
  Forall₂ (fun x y => R (interner.resolve x) (interner.resolve y)) xs ys

/-- The cases in which `unify` answers yes on plain types. -/
inductive UnifyStep (R : ArType → ArType → Prop) : ArType → ArType → Prop
  | primitive {p q : Primitive} (h : samePrimitive p q = true) :
      UnifyStep R (.primitive p) (.primitive q)
  | strRef {inner : TypeId} (h : interner.resolve inner = .primitive .str) :
      UnifyStep R (.primitive .str) (.ref inner)
  | strRefMut {inner : TypeId} (h : interner.resolve inner = .primitive .str) :
      UnifyStep R (.primitive .str) (.refMut inner)
  | refStr {inner : TypeId} (h : interner.resolve inner = .primitive .str) :
      UnifyStep R (.ref inner) (.primitive .str)
  | refMutStr {inner : TypeId} (h : interner.resolve inner = .primitive .str) :
      UnifyStep R (.refMut inner) (.primitive .str)
  | within {a b : ArType} (head : isUnifiable a = true) (shape : shapeOf a = shapeOf b)
      (components : Forall₂ (fun x y => x = y ∨ R (interner.resolve x) (interner.resolve y))
        (interner.children a) (interner.children b)) :
      UnifyStep R a b

/-- The cases in which `is_assignable` answers yes on plain types. -/
inductive AssignStep (R : ArType → ArType → Prop) : ArType → ArType → Prop
  | refl {a : ArType} : AssignStep R a a
  | primitive {p q : Primitive} (h : samePrimitive p q = true) :
      AssignStep R (.primitive p) (.primitive q)
  | derefStr {inner : TypeId} (h : interner.resolve inner = .primitive .str) :
      AssignStep R (.ref inner) (.primitive .str)
  | derefMutStr {inner : TypeId} (h : interner.resolve inner = .primitive .str) :
      AssignStep R (.refMut inner) (.primitive .str)
  | lift {a : ArType} {inner : TypeId} (notNullable : ∀ x, a ≠ .nullable x)
      (h : R a (interner.resolve inner)) : AssignStep R a (.nullable inner)
  | share {x y : TypeId} (h : R (interner.resolve x) (interner.resolve y)) :
      AssignStep R (.refMut x) (.ref y)
  | shareSlice {x y : TypeId} (h : R (interner.resolve x) (interner.resolve y)) :
      AssignStep R (.mutSlice x) (.slice y)
  | within {a b : ArType} (head : isCovariant a = true) (shape : shapeOf a = shapeOf b)
      (components : interner.Related R (interner.children a) (interner.children b)) :
      AssignStep R a b
  | func {params params' : DenseRange} {ret ret' : TypeId} (len : params.len = params'.len)
      (unified : interner.Related (fun x y => interner.unify x y = true)
        (interner.typeArgs params) (interner.typeArgs params'))
      (h : R (interner.resolve ret) (interner.resolve ret')) :
      AssignStep R (.func params ret) (.func params' ret')

variable {interner}

lemma forall₂_concat {R : TypeId → TypeId → Prop} {xs ys : List TypeId} {x y : TypeId}
    (h : xs.length = ys.length) : Forall₂ R (xs ++ [x]) (ys ++ [y]) ↔ Forall₂ R xs ys ∧ R x y := by
  constructor
  · intro hall
    have htake := forall₂_take xs.length hall
    have hdrop := forall₂_drop xs.length hall
    rw [take_left, h, take_left] at htake
    rw [drop_left, h] at hdrop
    exact ⟨htake, by simpa using hdrop⟩
  · rintro ⟨hall, hlast⟩
    exact rel_append hall (.cons hlast .nil)

lemma Valid.length_typeArgs (ha : interner.Valid a) {r : DenseRange} (hr : rangesOf a = [r]) :
    (interner.typeArgs r).length = r.len := by
  have hle := ha.1 r (hr ▸ mem_singleton_self r)
  rw [typeArgs, argsOf, length_take, length_drop]
  omega

lemma Valid.allArgs_iff (ha : interner.Valid a) (hb : interner.Valid b)
    (test : TypeId → TypeId → Bool) (R : TypeId → TypeId → Prop)
    (htest : ∀ x y, test x y = true ↔ R x y) ⦃r r' : DenseRange⦄ (hr : rangesOf a = [r])
    (hr' : rangesOf b = [r']) : interner.allArgs r r' test = true ↔
      r.len = r'.len ∧ Forall₂ R (interner.typeArgs r) (interner.typeArgs r') := by
  rw [forall₂_iff_zip, ha.length_typeArgs hr, hb.length_typeArgs hr']
  simp [allArgs, htest]

lemma Valid.allIds_iff (ha : interner.Valid a) (hb : interner.Valid b) ⦃r r' : DenseRange⦄
    (hr : rangesOf a = [r]) (hr' : rangesOf b = [r']) : interner.allArgs r r'
      (fun x y => decide (x = y) || f (interner.resolve x) (interner.resolve y)) = true ↔
      r.len = r'.len ∧
        Forall₂ (fun x y => x = y ∨ f (interner.resolve x) (interner.resolve y) = true)
          (interner.typeArgs r) (interner.typeArgs r') :=
  ha.allArgs_iff hb _ _ (fun x y => by rw [Bool.or_eq_true, decide_eq_true_eq]) hr hr'

lemma unifyBody_iff (hva : interner.Valid a) (hvb : interner.Valid b) (ha : Plain a)
    (hb : Plain b) : interner.unifyBody f a b = true ↔
      interner.UnifyStep (fun x y => f x y = true) a b := by
  obtain ⟨haerr, haany, halit⟩ := ha
  obtain ⟨hberr, hbany, hblit⟩ := hb
  have hargs := hva.allIds_iff hvb (f := f)
  simp only [unifyBody, haerr, hberr, haany, hbany, halit, hblit, Bool.or_self, Bool.false_eq_true,
    decide_false, Bool.false_and, if_false]
  constructor
  · intro h
    -- all pairs of different constructors go away here, except those with `str`
    cases a <;> cases b <;> simp only [Bool.false_eq_true, Bool.and_eq_true, Bool.or_eq_true,
      decide_eq_true_eq] at h
    case primitive.primitive => exact .primitive h
    case primitive.ref | primitive.refMut | ref.primitive | refMut.primitive =>
      obtain ⟨rfl, hstr⟩ := h
      constructor
      exact hstr
    case vector.vector =>
      subst h
      exact .within rfl rfl .nil
    case genRef.genRef | err.err | void.void => exact .within rfl rfl .nil
    case array.array =>
      obtain ⟨rfl, h⟩ := h
      exact .within rfl rfl (.cons h .nil)
    case result.result => exact .within rfl rfl (.cons h.1 (.cons h.2 .nil))
    case named.named sym args sym' args' =>
      obtain ⟨rfl, h⟩ := h
      obtain ⟨hlen, hcomponents⟩ := (hargs rfl rfl).1 h
      exact .within rfl (by simp [shapeOf, hlen]) hcomponents
    case tuple.tuple elems elems' =>
      obtain ⟨hlen, hcomponents⟩ := (hargs rfl rfl).1 h
      exact .within rfl (by simp [shapeOf, hlen]) hcomponents
    case func.func params ret params' ret' =>
      obtain ⟨hlen, hcomponents⟩ := (hargs rfl rfl).1 h.1
      exact .within rfl (by simp [shapeOf, hlen]) (rel_append hcomponents (.cons h.2 .nil))
    all_goals exact .within rfl rfl (.cons h .nil)
  · intro h
    cases h with
    | primitive h => exact h
    | strRef h | strRefMut h | refStr h | refMutStr h => simp [h]
    | within head shape components =>
      cases a <;> cases b <;> simp only [shapeOf, reduceCtorEq] at shape <;>
        try exact absurd head Bool.false_ne_true
      case named.named sym args sym' args' =>
        simp only [ArType.named.injEq, DenseRange.mk.injEq, true_and] at shape
        have hall := (hargs rfl rfl).2 ⟨shape.2, components⟩
        simp [shape.1, hall]
      case tuple.tuple elems elems' =>
        simp only [ArType.tuple.injEq, DenseRange.mk.injEq, true_and] at shape
        exact (hargs rfl rfl).2 ⟨shape, components⟩
      case func.func params ret params' ret' =>
        simp only [ArType.func.injEq, DenseRange.mk.injEq, true_and, and_true] at shape
        have hlens : (interner.typeArgs params).length = (interner.typeArgs params').length := by
          rw [hva.length_typeArgs rfl, hvb.length_typeArgs rfl, shape]
        obtain ⟨hparams, hret⟩ := (forall₂_concat hlens).1 components
        have hall := (hargs rfl rfl).2 ⟨shape, hparams⟩
        simpa [hall] using hret
      all_goals simp_all [children, childrenOf]

section

variable (hrefl : ∀ ty, f ty ty = true)
include hrefl

section

variable (hva : interner.Valid a) (hvb : interner.Valid b)
include hva hvb

lemma isAssignableMatch_sound (h : interner.isAssignableMatch f a b = true) :
    interner.AssignStep (fun x y => f x y = true) a b := by
  have hids : ∀ x y, (decide (x = y) || f (interner.resolve x) (interner.resolve y)) = true ↔
      f (interner.resolve x) (interner.resolve y) = true := by
    intro x y
    rw [Bool.or_eq_true, decide_eq_true_eq]
    exact or_iff_right_of_imp fun hxy => hxy ▸ hrefl _
  have hargs := hva.allArgs_iff hvb _ _ hids
  cases a <;> cases b <;> simp only [isAssignableMatch, Bool.false_eq_true, Bool.and_eq_true,
    hids, decide_eq_true_eq] at h
  case primitive.primitive => exact .primitive h
  case mutSlice.mutSlice => exact h ▸ .refl
  case mutSlice.slice => exact .shareSlice h
  case array.array =>
    obtain ⟨rfl, h⟩ := h
    exact .within rfl rfl (.cons h .nil)
  case result.result => exact .within rfl rfl (.cons h.1 (.cons h.2 .nil))
  case named.named sym args sym' args' =>
    obtain ⟨rfl, h⟩ := h
    obtain ⟨hlen, hcomponents⟩ := (hargs rfl rfl).1 h
    exact .within rfl (by simp [shapeOf, hlen]) hcomponents
  case tuple.tuple elems elems' =>
    obtain ⟨hlen, hcomponents⟩ := (hargs rfl rfl).1 h
    exact .within rfl (by simp [shapeOf, hlen]) hcomponents
  case func.func params ret params' ret' =>
    obtain ⟨hlen, hcomponents⟩ := (hva.allArgs_iff hvb _ _ (fun x y => Iff.rfl) rfl rfl).1 h.1
    exact .func hlen hcomponents h.2
  all_goals exact .within rfl rfl (.cons h .nil)

lemma isAssignableRest_sound (ha : Plain a) (hb : Plain b)
    (h : interner.isAssignableRest f a b = true) :
    interner.AssignStep (fun x y => f x y = true) a b := by
  simp only [isAssignableRest, ha.2.2, hb.2.2, Bool.false_and, Bool.false_eq_true, if_false] at h
  split_ifs at h with hderef
  case neg => exact isAssignableMatch_sound hrefl hva hvb h
  case pos =>
    cases a <;> simp only [Bool.false_eq_true, Bool.and_eq_true, decide_eq_true_eq] at hderef
    case ref inner => exact hderef.1 ▸ .derefStr hderef.2
    case refMut inner => exact hderef.1 ▸ .derefMutStr hderef.2

lemma isAssignableBody_sound (ha : Plain a) (hb : Plain b)
    (h : interner.isAssignableBody f a b = true) :
    interner.AssignStep (fun x y => f x y = true) a b := by
  have hrest := isAssignableRest_sound hrefl hva hvb ha hb
  simp only [isAssignableBody, ha.1, hb.1, ha.2.1, hb.2.1, Bool.or_self, Bool.false_eq_true,
    decide_false, if_false] at h
  split at h
  case isTrue heq => exact heq ▸ .refl
  case isFalse =>
    split at h
    · split at h
      · exact .within rfl rfl (.cons h .nil)
      case _ hnot =>
        split at h
        · exact .lift (fun x hx => hnot x hx) ‹_›
        · exact hrest h
    · split at h
      · exact .share h
      · exact hrest h
    · exact hrest h

end

end

attribute [local simp] isAssignableRest isAssignableMatch

lemma isAssignableBody_complete (hva : interner.Valid a) (hvb : interner.Valid b)
    (h : interner.AssignStep (fun x y => f x y = true) a b) :
    interner.isAssignableBody f a b = true := by
  unfold isAssignableBody
  by_cases herr : (a.isError || b.isError) = true
  · rw [if_pos herr]
  by_cases hany : (decide (a = .primitive .any) || decide (b = .primitive .any)) = true
  · rw [if_neg herr, if_pos hany]
  by_cases heq : a = b
  · rw [if_neg herr, if_neg hany, if_pos heq]
  rw [if_neg herr, if_neg hany, if_neg heq]
  cases h with
  | refl => exact absurd rfl heq
  | primitive h | shareSlice h => simp [h]
  | derefStr h | derefMutStr h => simp [h]
  | lift notNullable h =>
    cases a <;> simp only [h, if_true]
    case nullable x => exact absurd rfl (notNullable x)
  | share h => exact h
  | func len unified h =>
    have hall := (hva.allArgs_iff hvb _ _ (fun x y => Iff.rfl) rfl rfl).2 ⟨len, unified⟩
    simp [h, hall]
  | within head shape components =>
    have hargs := hva.allIds_iff hvb (f := f)
    have hpairs := Forall₂.imp (fun x y hxy => Or.inr (a := x = y) hxy) components
    cases a <;> cases b <;> simp only [shapeOf, reduceCtorEq] at shape <;>
      try exact absurd head Bool.false_ne_true
    case named.named sym args sym' args' =>
      simp only [ArType.named.injEq, DenseRange.mk.injEq, true_and] at shape
      have hall := (hargs rfl rfl).2 ⟨shape.2, hpairs⟩
      simp [shape.1, hall]
    case tuple.tuple elems elems' =>
      simp only [ArType.tuple.injEq, DenseRange.mk.injEq, true_and] at shape
      have hall := (hargs rfl rfl).2 ⟨shape, hpairs⟩
      simp [hall]
    case result.result | array.array =>
      simp_all [children, childrenOf]
    all_goals
      obtain ⟨h, -⟩ := forall₂_cons.1 components
      simp [h]

lemma isAssignableBody_iff (hrefl : ∀ ty, f ty ty = true) (hva : interner.Valid a)
    (hvb : interner.Valid b) (ha : Plain a) (hb : Plain b) :
    interner.isAssignableBody f a b = true ↔ interner.AssignStep (fun x y => f x y = true) a b :=
  ⟨isAssignableBody_sound hrefl hva hvb ha hb, isAssignableBody_complete hva hvb⟩

/-! ## Enough unfoldings -/

/-- A type of the interner that is built without poison, `any` and literals. -/
structure Clean (interner : Interner) (ty : ArType) : Prop where
  valid : interner.Valid ty
  plain : interner.Everywhere Plain ty

variable {a b : ArType} {g : ArType → ArType → Bool}

lemma Clean.child (h : interner.Clean a) {id : TypeId} (hid : id ∈ interner.children a) :
    interner.Clean (interner.resolve id) :=
  ⟨h.valid.child hid, h.plain.child hid⟩

lemma forall₂_imp_of_mem {R S : TypeId → TypeId → Prop} {xs ys : List TypeId}
    (h : ∀ x ∈ xs, ∀ y ∈ ys, R x y → S x y) (hall : Forall₂ R xs ys) : Forall₂ S xs ys := by
  induction hall with
  | nil => exact .nil
  | cons hxy _ ih =>
    refine .cons (h _ mem_cons_self _ mem_cons_self hxy) (ih ?_)
    intro x hx y hy
    exact h x (mem_cons_of_mem _ hx) y (mem_cons_of_mem _ hy)

lemma UnifyStep.imp {R S : ArType → ArType → Prop}
    (hRS : ∀ x ∈ interner.children a, ∀ y ∈ interner.children b,
      R (interner.resolve x) (interner.resolve y) → S (interner.resolve x) (interner.resolve y))
    (h : interner.UnifyStep R a b) : interner.UnifyStep S a b := by
  cases h with
  | primitive h => exact .primitive h
  | strRef h => exact .strRef h
  | strRefMut h => exact .strRefMut h
  | refStr h => exact .refStr h
  | refMutStr h => exact .refMutStr h
  | within head shape components =>
    refine .within head shape (forall₂_imp_of_mem ?_ components)
    intro x hx y hy hxy
    exact hxy.imp_right (hRS x hx y hy)

/-- Recursive calls of `unify` go to components. -/
lemma UnifyStep.congr (h : ∀ x ∈ interner.children a, ∀ y ∈ interner.children b,
      f (interner.resolve x) (interner.resolve y) = g (interner.resolve x) (interner.resolve y)) :
    interner.UnifyStep (fun x y => f x y = true) a b ↔
      interner.UnifyStep (fun x y => g x y = true) a b :=
  ⟨.imp fun x hx y hy hxy => h x hx y hy ▸ hxy, .imp fun x hx y hy hxy => h x hx y hy ▸ hxy⟩

section

variable (ha : interner.Clean a) (hb : interner.Clean b)
include ha hb

/-- Recursive calls of `is_assignable` go to a smaller pair of clean types. -/
lemma AssignStep.imp {R S : ArType → ArType → Prop}
    (hRS : ∀ x y, interner.Clean x → interner.Clean y →
      interner.rank x + interner.rank y < interner.rank a + interner.rank b → R x y → S x y)
    (h : interner.AssignStep R a b) : interner.AssignStep S a b := by
  have hpair : ∀ x ∈ interner.children a, ∀ y ∈ interner.children b,
      R (interner.resolve x) (interner.resolve y) →
        S (interner.resolve x) (interner.resolve y) := by
    intro x hx y hy
    apply hRS _ _ (ha.child hx) (hb.child hy)
    exact Nat.add_lt_add (ha.valid.rank_child_lt hx) (hb.valid.rank_child_lt hy)
  cases h with
  | refl => exact .refl
  | primitive h => exact .primitive h
  | derefStr h => exact .derefStr h
  | derefMutStr h => exact .derefMutStr h
  | @lift _ inner notNullable h =>
    have hmem := mem_singleton_self inner
    refine .lift notNullable (hRS _ _ ha (hb.child hmem) ?_ h)
    exact Nat.add_lt_add_left (hb.valid.rank_child_lt hmem) _
  | share h => exact .share (hpair _ (mem_singleton_self _) _ (mem_singleton_self _) h)
  | shareSlice h =>
    exact .shareSlice (hpair _ (mem_singleton_self _) _ (mem_singleton_self _) h)
  | within head shape components =>
    exact .within head shape (forall₂_imp_of_mem hpair components)
  | func len unified h =>
    exact .func len unified (hpair _ (by simp [children, childrenOf]) _
      (by simp [children, childrenOf]) h)

lemma AssignStep.congr (h : ∀ x y, interner.Clean x → interner.Clean y →
      interner.rank x + interner.rank y < interner.rank a + interner.rank b → f x y = g x y) :
    interner.AssignStep (fun x y => f x y = true) a b ↔
      interner.AssignStep (fun x y => g x y = true) a b :=
  ⟨.imp ha hb fun x y hx hy hlt hxy => h x y hx hy hlt ▸ hxy,
    .imp ha hb fun x y hx hy hlt hxy => h x y hx hy hlt ▸ hxy⟩

lemma unifyFuel_stable {n m : Nat} (hn : interner.rank a < n) (hm : interner.rank a < m) :
    interner.unifyFuel n a b = interner.unifyFuel m a b := by
  induction n generalizing a b m with
  | zero => exact absurd hn (Nat.not_lt_zero _)
  | succ n ih =>
    obtain ⟨m, rfl⟩ := Nat.exists_eq_add_of_lt hm
    rw [Bool.eq_iff_iff, unifyFuel, unifyFuel,
      unifyBody_iff ha.valid hb.valid ha.plain.here hb.plain.here,
      unifyBody_iff ha.valid hb.valid ha.plain.here hb.plain.here]
    refine UnifyStep.congr fun x hx y hy => ?_
    have hlt := ha.valid.rank_child_lt hx
    exact ih (ha.child hx) (hb.child hy) (by omega) (by omega)

lemma unify_iff :
    interner.unify a b = true ↔ interner.UnifyStep (fun x y => interner.unify x y = true) a b := by
  rw [unify, unifyFuel, unifyBody_iff ha.valid hb.valid ha.plain.here hb.plain.here]
  refine UnifyStep.congr fun x hx y hy => ?_
  have hlt := ha.valid.rank_child_lt hx
  have hle := ha.valid.rank_le
  exact unifyFuel_stable (ha.child hx) (hb.child hy) (by omega) (by omega)

end

lemma isAssignableBody_refl (f : ArType → ArType → Bool) (ty : ArType) :
    interner.isAssignableBody f ty ty = true := by
  unfold isAssignableBody
  split
  · rfl
  · split
    · rfl
    · rw [if_pos rfl]

lemma isAssignableFuel_stable {n m : Nat} (ha : interner.Clean a) (hb : interner.Clean b)
    (hn : interner.rank a + interner.rank b < n) (hm : interner.rank a + interner.rank b < m) :
    interner.isAssignableFuel (n + 1) a b = interner.isAssignableFuel (m + 1) a b := by
  induction n generalizing a b m with
  | zero => exact absurd hn (Nat.not_lt_zero _)
  | succ n ih =>
    obtain ⟨m, rfl⟩ := Nat.exists_eq_add_of_lt hm
    have hrefl : ∀ fuel ty, interner.isAssignableFuel (fuel + 1) ty ty = true :=
      fun fuel ty => isAssignableBody_refl _ ty
    rw [Bool.eq_iff_iff, isAssignableFuel, isAssignableFuel,
      isAssignableBody_iff (hrefl n) ha.valid hb.valid ha.plain.here hb.plain.here,
      isAssignableBody_iff (hrefl _) ha.valid hb.valid ha.plain.here hb.plain.here]
    exact AssignStep.congr ha hb fun x y hx hy hlt => ih hx hy (by omega) (by omega)

lemma isAssignable_refl (ty : ArType) : interner.isAssignable ty ty = true :=
  isAssignableBody_refl _ ty

lemma isAssignable_iff (ha : interner.Clean a) (hb : interner.Clean b) :
    interner.isAssignable a b = true ↔
      interner.AssignStep (fun x y => interner.isAssignable x y = true) a b := by
  have hrefl : ∀ ty, interner.isAssignableFuel (2 * interner.types.length + 1) ty ty = true :=
    isAssignableBody_refl _
  rw [isAssignable, isAssignableFuel,
    isAssignableBody_iff hrefl ha.valid hb.valid ha.plain.here hb.plain.here]
  refine AssignStep.congr ha hb fun x y hx hy hlt => ?_
  have hlea := ha.valid.rank_le
  have hleb := hb.valid.rank_le
  exact isAssignableFuel_stable hx hy (by omega) (by omega)

end Interner

end Arandu.Types
