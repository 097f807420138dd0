import Arandu.Types.Assignable

/-!
# Assignability and mutation

A value reached through `mut ref`, `ptr` or `mut []` can be overwritten at the type of the alias, so
that the place it came from must take every value of that type. `is_assignable` keeps `mut []`
invariant, but lets `mut ref` and `ptr` vary with the type behind them.

`Coerces` says how one type becomes another and whether a coercion that cannot be undone is among
the steps; the law holds exactly where there is none.
-/

namespace Arandu.Types.Interner

open Arandu.Amir List

variable {interner : Interner} {a b : ArType} {w : Bool}

/-- One type becomes another: by an equal primitive, by lifting to a nullable type, by the shared
view of a mutable reference or slice, by the dereference of a reference to `str`, in the components
of a covariant type and in the result of a function. The flag tells whether a step of the second to
the fourth kind is used. -/
inductive Coerces (interner : Interner) : Bool → ArType → ArType → Prop
  | refl {a : ArType} : Coerces interner false a a
  | primitive {p q : Primitive} (h : samePrimitive p q = true) :
      Coerces interner false (.primitive p) (.primitive q)
  | derefStr {inner : TypeId} (h : interner.resolve inner = .primitive .str) :
      Coerces interner true (.ref inner) (.primitive .str)
  | derefMutStr {inner : TypeId} (h : interner.resolve inner = .primitive .str) :
      Coerces interner true (.refMut inner) (.primitive .str)
  | lift {w : Bool} {a : ArType} {inner : TypeId} (notNullable : ∀ x, a ≠ .nullable x)
      (h : Coerces interner w a (interner.resolve inner)) :
      Coerces interner true a (.nullable inner)
  | share {w : Bool} {x y : TypeId}
      (h : Coerces interner w (interner.resolve x) (interner.resolve y)) :
      Coerces interner true (.refMut x) (.ref y)
  | shareSlice {w : Bool} {x y : TypeId}
      (h : Coerces interner w (interner.resolve x) (interner.resolve y)) :
      Coerces interner true (.mutSlice x) (.slice y)
  | within {a b : ArType} (head : isCovariant a = true) (shape : shapeOf a = shapeOf b)
      (len : (interner.children a).length = (interner.children b).length)
      (flag : TypeId × TypeId → Bool)
      (components : ∀ pair ∈ (interner.children a).zip (interner.children b),
        Coerces interner (flag pair) (interner.resolve pair.1) (interner.resolve pair.2)) :
      Coerces interner (((interner.children a).zip (interner.children b)).any flag) a b
  | func {w : Bool} {params params' : DenseRange} {ret ret' : TypeId}
      (len : params.len = params'.len)
      (unified : interner.Related (fun x y => interner.unify x y = true)
        (interner.typeArgs params) (interner.typeArgs params'))
      (h : Coerces interner w (interner.resolve ret) (interner.resolve ret')) :
      Coerces interner w (.func params ret) (.func params' ret')

/-! ## Assignable types coerce -/

lemma exists_coerces (ha : interner.Clean a) (hb : interner.Clean b)
    (hab : interner.isAssignable a b = true) : ∃ w, interner.Coerces w a b := by
  induction hn : interner.rank a + interner.rank b using Nat.strongRecOn generalizing a b with
  | ind n ih =>
    have hpair : ∀ x ∈ interner.children a, ∀ y ∈ interner.children b,
        interner.isAssignable (interner.resolve x) (interner.resolve y) = true →
        ∃ w, interner.Coerces w (interner.resolve x) (interner.resolve y) := by
      intro x hx y hy hxy
      have hlta := ha.valid.rank_child_lt hx
      have hltb := hb.valid.rank_child_lt hy
      exact ih _ (by omega) (ha.child hx) (hb.child hy) hxy rfl
    cases (isAssignable_iff ha hb).1 hab with
    | refl => exact ⟨_, .refl⟩
    | primitive h => exact ⟨_, .primitive h⟩
    | derefStr h => exact ⟨_, .derefStr h⟩
    | derefMutStr h => exact ⟨_, .derefMutStr h⟩
    | @lift _ y notNullable h =>
      have hy : y ∈ interner.children (.nullable y) := mem_singleton_self y
      have hltb := hb.valid.rank_child_lt hy
      obtain ⟨w, hw⟩ := ih _ (by omega) ha (hb.child hy) h rfl
      exact ⟨_, .lift notNullable hw⟩
    | share h =>
      obtain ⟨w, hw⟩ := hpair _ (mem_singleton_self _) _ (mem_singleton_self _) h
      exact ⟨_, .share hw⟩
    | shareSlice h =>
      obtain ⟨w, hw⟩ := hpair _ (mem_singleton_self _) _ (mem_singleton_self _) h
      exact ⟨_, .shareSlice hw⟩
    | within head shape components =>
      have hflags : ∀ pair : TypeId × TypeId, ∃ w,
          pair ∈ (interner.children a).zip (interner.children b) →
            interner.Coerces w (interner.resolve pair.1) (interner.resolve pair.2) := by
        intro pair
        by_cases hmem : pair ∈ (interner.children a).zip (interner.children b)
        · obtain ⟨hx, hy⟩ := of_mem_zip hmem
          obtain ⟨w, hw⟩ := hpair _ hx _ hy (forall₂_zip components hmem)
          exact ⟨w, fun _ => hw⟩
        · exact ⟨false, fun h => absurd h hmem⟩
      choose flag hflag using hflags
      exact ⟨_, .within head shape components.length_eq flag hflag⟩
    | func len unified h =>
      obtain ⟨w, hw⟩ := hpair _ (mem_append_right _ (mem_singleton_self _)) _
        (mem_append_right _ (mem_singleton_self _)) h
      exact ⟨w, .func len unified hw⟩

lemma Coerces.isAssignable (h : interner.Coerces w a b) (ha : interner.Clean a)
    (hb : interner.Clean b) : interner.isAssignable a b = true := by
  induction h with
  | refl => exact isAssignable_refl _
  | primitive h => exact (isAssignable_iff ha hb).2 (.primitive h)
  | derefStr h => exact (isAssignable_iff ha hb).2 (.derefStr h)
  | derefMutStr h => exact (isAssignable_iff ha hb).2 (.derefMutStr h)
  | lift notNullable _ ih =>
    exact (isAssignable_iff ha hb).2 (.lift notNullable (ih ha (hb.child (mem_singleton_self _))))
  | share _ ih =>
    exact (isAssignable_iff ha hb).2
      (.share (ih (ha.child (mem_singleton_self _)) (hb.child (mem_singleton_self _))))
  | shareSlice _ ih =>
    exact (isAssignable_iff ha hb).2
      (.shareSlice (ih (ha.child (mem_singleton_self _)) (hb.child (mem_singleton_self _))))
  | within head shape len flag _ ih =>
    refine (isAssignable_iff ha hb).2 (.within head shape (forall₂_iff_zip.2 ⟨len, ?_⟩))
    intro x y hmem
    obtain ⟨hx, hy⟩ := of_mem_zip hmem
    exact ih (x, y) hmem (ha.child hx) (hb.child hy)
  | func len unified _ ih =>
    exact (isAssignable_iff ha hb).2 (.func len unified
      (ih (ha.child (mem_append_right _ (mem_singleton_self _)))
        (hb.child (mem_append_right _ (mem_singleton_self _)))))

/-! ## Going back -/

lemma isAssignable_within (ha : interner.Clean a) (hb : interner.Clean b)
    (head : isCovariant a = true) (shape : shapeOf a = shapeOf b) :
    interner.isAssignable a b = true ↔
      interner.Related (fun x y => interner.isAssignable x y = true) (interner.children a)
        (interner.children b) := by
  rw [isAssignable_iff ha hb]
  constructor
  · intro h
    cases h with
    | refl => exact forall₂_same.2 fun x _ => isAssignable_refl _
    | lift notNullable h =>
      cases a <;> first | exact absurd rfl (notNullable _) | cases shape
    | within _ _ components => exact components
    | share _ | derefStr _ | derefMutStr _ => cases shape
    | primitive _ | shareSlice _ | func _ _ _ => cases head
  · exact .within head shape

lemma isAssignable_ret {params params' : DenseRange} {ret ret' : TypeId}
    (ha : interner.Clean (.func params ret)) (hb : interner.Clean (.func params' ret'))
    (h : interner.isAssignable (.func params ret) (.func params' ret') = true) :
    interner.isAssignable (interner.resolve ret) (interner.resolve ret') = true := by
  cases (isAssignable_iff ha hb).1 h with
  | refl => exact isAssignable_refl _
  | within head => cases head
  | func _ _ hret => exact hret

/-- A coercion goes back exactly if nothing was lost on the way. -/
lemma Coerces.back_iff (h : interner.Coerces w a b) (ha : interner.Clean a)
    (hb : interner.Clean b) : interner.isAssignable b a = true ↔ w = false := by
  induction h with
  | refl => exact iff_of_true (isAssignable_refl _) rfl
  | primitive h =>
    exact iff_of_true ((isAssignable_iff hb ha).2 (.primitive (samePrimitive_symm h))) rfl
  | derefStr _ | derefMutStr _ =>
    refine iff_of_false (fun hback => ?_) Bool.false_ne_true.symm
    cases (isAssignable_iff hb ha).1 hback with
    | within head => cases head
  | lift notNullable _ _ =>
    refine iff_of_false (fun hback => ?_) Bool.false_ne_true.symm
    obtain ⟨x, rfl⟩ := ((isAssignable_iff hb ha).1 hback).eq_nullable
    exact notNullable x rfl
  | share _ _ | shareSlice _ _ =>
    refine iff_of_false (fun hback => ?_) Bool.false_ne_true.symm
    cases (isAssignable_iff hb ha).1 hback with
    | within _ shape => cases shape
  | @within a b head shape len flag _ ih =>
    rw [isAssignable_within hb ha (isCovariant_of_shape shape ▸ head) shape.symm, any_eq_false]
    constructor
    · intro hback pair hmem
      obtain ⟨hx, hy⟩ := of_mem_zip hmem
      have hswap := Forall₂.flip hback
      rw [(ih pair hmem (ha.child hx) (hb.child hy)).1 (forall₂_zip hswap hmem)]
      exact Bool.false_ne_true
    · intro hflags
      refine Forall₂.flip (forall₂_iff_zip.2 ⟨len, ?_⟩)
      intro x y hmem
      obtain ⟨hx, hy⟩ := of_mem_zip hmem
      exact (ih (x, y) hmem (ha.child hx) (hb.child hy)).2 (Bool.not_eq_true _ ▸ hflags _ hmem)
  | @func w params params' ret ret' len unified _ ih =>
    have hret : ret ∈ interner.children (.func params ret) :=
      mem_append_right _ (mem_singleton_self _)
    have hret' : ret' ∈ interner.children (.func params' ret') :=
      mem_append_right _ (mem_singleton_self _)
    rw [← ih (ha.child hret) (hb.child hret')]
    refine ⟨isAssignable_ret hb ha, fun hback =>
      (isAssignable_iff hb ha).2 (.func len.symm ?_ hback)⟩
    -- the parameters are compared by `unify`, which goes both ways
    refine Forall₂.flip (forall₂_imp_of_mem ?_ unified)
    intro x hx y hy hxy
    exact unify_symm (ha.child (mem_append_left _ hx)) (hb.child (mem_append_left _ hy)) hxy

/-! ## Writes through an alias -/

lemma Clean.of_component {ty : ArType} {x : TypeId} (hranges : rangesOf ty = [])
    (hplain : Plain ty) (hchildren : interner.children ty = [x]) (hx : x < interner.types.length)
    (hcx : interner.Clean (interner.resolve x)) : interner.Clean ty where
  valid := by
    refine ⟨by simp [hranges], fun z (hz : z ∈ interner.children ty) => ?_⟩
    obtain rfl := mem_singleton.1 (hchildren ▸ hz)
    exact hx
  plain := by
    refine .intro hplain fun z hz => ?_
    obtain rfl := mem_singleton.1 (hchildren ▸ hz)
    exact hcx.plain

/-- A value written through `mut ref`, `ptr` or `mut []` fits the place behind it exactly where the
type of the alias is not reached by a coercion that cannot be undone. -/
theorem isAssignable_respects_mutation {x y : TypeId} (hx : x < interner.types.length)
    (hy : y < interner.types.length) (hcx : interner.Clean (interner.resolve x))
    (hcy : interner.Clean (interner.resolve y)) :
    ((interner.isAssignable (.refMut x) (.refMut y) = true →
          interner.isAssignable (interner.resolve y) (interner.resolve x) = true) ∧
        (interner.isAssignable (.ptr x) (.ptr y) = true →
          interner.isAssignable (interner.resolve y) (interner.resolve x) = true) ∧
        (interner.isAssignable (.mutSlice x) (.mutSlice y) = true →
          interner.isAssignable (interner.resolve y) (interner.resolve x) = true)) ↔
      ¬ interner.Coerces true (interner.resolve x) (interner.resolve y) := by
  have hrefMut : ∀ z, z < interner.types.length → interner.Clean (interner.resolve z) →
      interner.Clean (.refMut z) := fun z => .of_component rfl ⟨rfl, nofun, rfl⟩ rfl
  have hptr : ∀ z, z < interner.types.length → interner.Clean (interner.resolve z) →
      interner.Clean (.ptr z) := fun z => .of_component rfl ⟨rfl, nofun, rfl⟩ rfl
  have hmutSlice : ∀ z, z < interner.types.length → interner.Clean (interner.resolve z) →
      interner.Clean (.mutSlice z) := fun z => .of_component rfl ⟨rfl, nofun, rfl⟩ rfl
  have hrefMut_iff := isAssignable_within (hrefMut x hx hcx) (hrefMut y hy hcy) rfl rfl
  have hptr_iff := isAssignable_within (hptr x hx hcx) (hptr y hy hcy) rfl rfl
  constructor
  · rintro ⟨hlaw, -, -⟩ hcoerces
    have hback := hlaw (hrefMut_iff.2 (.cons (hcoerces.isAssignable hcx hcy) .nil))
    exact Bool.false_ne_true ((hcoerces.back_iff hcx hcy).1 hback).symm
  intro hnot
  have hlaw : interner.isAssignable (interner.resolve x) (interner.resolve y) = true →
      interner.isAssignable (interner.resolve y) (interner.resolve x) = true := by
    intro hxy
    obtain ⟨w, hw⟩ := exists_coerces hcx hcy hxy
    cases w with
    | false => exact (hw.back_iff hcx hcy).2 rfl
    | true => exact absurd hw hnot
  refine ⟨fun h => hlaw ?_, fun h => hlaw ?_, fun h => ?_⟩
  · exact (forall₂_cons.1 (hrefMut_iff.1 h)).1
  · exact (forall₂_cons.1 (hptr_iff.1 h)).1
  · -- a mutable slice is only assignable to itself
    cases (isAssignable_iff (hmutSlice x hx hcx) (hmutSlice y hy hcy)).1 h with
    | refl => exact isAssignable_refl _
    | within head => cases head

/-- `int`, `byte`, `u8`, `int?`. -/
def cells : Interner where
  types := [.primitive .int, .primitive .byte, .primitive .u8, .nullable 0]
  pool := []
  admitted := by decide

theorem isAssignable_respects_mutation_cells :
    ¬ cells.Coerces true (.primitive .byte) (.primitive .u8) ∧
      (cells.isAssignable (.refMut 1) (.refMut 2) = true ∧
        cells.isAssignable (.primitive .u8) (.primitive .byte) = true) := by
  have hclean : ∀ id < 4, cells.Clean (cells.resolve id) :=
    fun id hid => clean_of_types (by decide) hid
  have hnot : ¬ cells.Coerces true (.primitive .byte) (.primitive .u8) := by
    intro h
    have hback := (h.back_iff (hclean 1 (by decide)) (hclean 2 (by decide))).1 (by decide)
    exact absurd hback (by decide)
  have hlaw := (@isAssignable_respects_mutation cells 1 2 (by decide) (by decide)
    (hclean 1 (by decide)) (hclean 2 (by decide))).2 hnot
  exact ⟨hnot, by decide, hlaw.1 (by decide)⟩

/-- A `mut ref int` passes for a `mut ref int?` and a `ptr[int]` for a `ptr[int?]`, and `nil` can be
written through them. -/
theorem mutable_alias_widens : (∀ id < 4, cells.Clean (cells.resolve id)) ∧
      cells.isAssignable (.refMut 0) (.refMut 3) = true ∧
      cells.isAssignable (.ptr 0) (.ptr 3) = true ∧
      cells.isAssignable (cells.resolve 3) (cells.resolve 0) = false ∧
      cells.Coerces true (cells.resolve 0) (cells.resolve 3) :=
  ⟨fun _ hid => clean_of_types (by decide) hid, by decide, by decide, by decide,
    .lift nofun .refl⟩

end Arandu.Types.Interner
