import Arandu.Types.Unify

/-!
# Assignability is transitive, away from references to `str`

Assignability composes through lifting to a nullable type, sharing of mutable references and slices
and covariance. What does not compose is the automatic dereference of `ref str`: it is one step at a
time, and in function parameters, which are compared by `unify`, it goes both ways.
-/

namespace Arandu.Types.Interner

open Arandu.Amir List

variable {interner : Interner} {a b c ty : ArType} {x y : TypeId}

/-! ## Shapes and components -/

lemma eq_of_shape {wrap : TypeId → ArType} {R : TypeId → TypeId → Prop}
    (hwrap : wrap ∈ [.ref, .refMut, .nullable, .slice]) (h : shapeOf (wrap x) = shapeOf b)
    (hall : Forall₂ R (interner.children (wrap x)) (interner.children b)) :
    ∃ y, b = wrap y ∧ R x y := by
  simp only [mem_cons, not_mem_nil, or_false] at hwrap
  rcases hwrap with rfl | rfl | rfl | rfl <;> cases b <;> simp only [shapeOf, reduceCtorEq] at h <;>
    exact ⟨_, rfl, (forall₂_cons.1 hall).1⟩

lemma isUnifiable_of_shape (h : shapeOf a = shapeOf b) : isUnifiable a = isUnifiable b := by
  cases a <;> cases b <;> first | rfl | cases h

lemma isCovariant_of_shape (h : shapeOf a = shapeOf b) : isCovariant a = isCovariant b := by
  cases a <;> cases b <;> first | rfl | cases h

lemma forall₂_trans_of_mem {R S T : TypeId → TypeId → Prop} {xs ys zs : List TypeId}
    (h : ∀ x ∈ xs, ∀ y ∈ ys, ∀ z ∈ zs, R x y → S y z → T x z) (hxy : Forall₂ R xs ys)
    (hyz : Forall₂ S ys zs) : Forall₂ T xs zs := by
  induction hxy generalizing zs with
  | nil =>
    cases hyz
    exact .nil
  | @cons x y xs ys hR _ ih =>
    cases hyz with
    | cons hS hrest =>
      refine .cons (h _ mem_cons_self _ mem_cons_self _ mem_cons_self hR hS) ?_
      apply ih _ hrest
      intro x hx y hy z hz
      exact h x (mem_cons_of_mem _ hx) y (mem_cons_of_mem _ hy) z (mem_cons_of_mem _ hz)

lemma samePrimitive_symm {p q : Primitive} (h : samePrimitive p q = true) :
    samePrimitive q p = true := by
  simp only [samePrimitive, Bool.or_eq_true, decide_eq_true_eq] at h ⊢
  rcases h with (rfl | ⟨rfl, rfl⟩) | ⟨rfl, rfl⟩ <;> simp

lemma samePrimitive_trans {p q r : Primitive} (h : samePrimitive p q = true)
    (h' : samePrimitive q r = true) : samePrimitive p r = true := by
  simp only [samePrimitive, Bool.or_eq_true, decide_eq_true_eq] at h h' ⊢
  rcases h with (rfl | ⟨rfl, rfl⟩) | ⟨rfl, rfl⟩
  · exact h'
  all_goals
    rcases h' with (rfl | ⟨h', rfl⟩) | ⟨h', rfl⟩ <;> simp_all

lemma eq_str_of_samePrimitive {q : Primitive} (h : samePrimitive .str q = true) : q = .str := by
  simpa [samePrimitive, eq_comm] using h

/-! ## `unify` is symmetric -/

lemma unify_symm (ha : interner.Clean a) (hb : interner.Clean b)
    (hab : interner.unify a b = true) : interner.unify b a = true := by
  induction hn : interner.rank a using Nat.strongRecOn generalizing a b with
  | ind n ih =>
    rw [unify_iff hb ha]
    cases (unify_iff ha hb).1 hab with
    | primitive h => exact .primitive (samePrimitive_symm h)
    | strRef h => exact .refStr h
    | strRefMut h => exact .refMutStr h
    | refStr h => exact .strRef h
    | refMutStr h => exact .strRefMut h
    | within head shape components =>
      refine .within (isUnifiable_of_shape shape ▸ head) shape.symm (Forall₂.flip ?_)
      refine forall₂_imp_of_mem ?_ components
      intro x hx y hy hxy
      refine hxy.imp Eq.symm fun hunify => ?_
      exact ih _ (hn ▸ ha.valid.rank_child_lt hx) (ha.child hx) (hb.child hy) hunify rfl

/-! ## References to `str` -/

/-- What a reference of either kind points to. -/
def refTarget : ArType → Option TypeId
  | .ref inner | .refMut inner => some inner
  | _ => none

def mutRefTarget : ArType → Option TypeId
  | .refMut inner => some inner
  | _ => none

variable (interner)

/-- `ref str` or `mut ref str`. -/
def IsRefToStr (ty : ArType) : Prop :=
  ∃ inner ∈ refTarget ty, interner.resolve inner = .primitive .str

/-- A reference to a reference to `str`. -/
def IsRefToRefToStr (ty : ArType) : Prop :=
  ∃ inner ∈ refTarget ty, interner.IsRefToStr (interner.resolve inner)

def IsMutRefToStr (ty : ArType) : Prop :=
  ∃ inner ∈ mutRefTarget ty, interner.resolve inner = .primitive .str

instance (ty : ArType) : Decidable (interner.IsRefToStr ty) :=
  inferInstanceAs (Decidable (∃ inner ∈ refTarget ty, _))

instance (ty : ArType) : Decidable (interner.IsRefToRefToStr ty) :=
  inferInstanceAs (Decidable (∃ inner ∈ refTarget ty, _))

instance (ty : ArType) : Decidable (interner.IsMutRefToStr ty) :=
  inferInstanceAs (Decidable (∃ inner ∈ mutRefTarget ty, _))

/-- The types on which the dereference of `unify` composes. -/
def DerefsOnce (ty : ArType) : Prop :=
  ¬ interner.IsRefToRefToStr ty ∧ ¬ interner.IsMutRefToStr ty

instance (ty : ArType) : Decidable (interner.DerefsOnce ty) :=
  inferInstanceAs (Decidable (_ ∧ _))

def ParamsDerefOnce (ty : ArType) : Prop :=
  ∀ params ret, ty = .func params ret →
    ∀ x ∈ interner.typeArgs params, interner.Everywhere interner.DerefsOnce (interner.resolve x)

variable {interner}

lemma unify_str (hb : interner.Clean b) (ha : interner.Clean (.primitive .str))
    (hab : interner.unify (.primitive .str) b = true) :
    b = .primitive .str ∨ interner.IsRefToStr b := by
  cases (unify_iff ha hb).1 hab with
  | primitive h => exact .inl (congrArg _ (eq_str_of_samePrimitive h))
  | strRef h | strRefMut h => exact .inr ⟨_, rfl, h⟩
  | within head => cases head

lemma isAssignable_str (ha : interner.Clean a) (hb : interner.Clean (.primitive .str))
    (hab : interner.isAssignable a (.primitive .str) = true) :
    a = .primitive .str ∨ interner.IsRefToStr a := by
  cases (isAssignable_iff ha hb).1 hab with
  | refl => exact .inl rfl
  | primitive h => exact .inl (congrArg _ (eq_str_of_samePrimitive (samePrimitive_symm h)))
  | derefStr h | derefMutStr h => exact .inr ⟨_, rfl, h⟩
  | within head shape =>
    rw [isCovariant_of_shape shape] at head
    cases head

/-! ## `unify` composes on types that dereference once -/

lemma Clean.target (h : interner.Clean ty) (hx : x ∈ refTarget ty) :
    interner.Clean (interner.resolve x) := by
  cases ty <;> cases hx <;> exact h.child (mem_singleton_self x)

lemma resolve_eq_str_of_unify (ha : interner.Clean a) (hb : interner.Clean b)
    (hx : x ∈ refTarget a) (hy : y ∈ refTarget b) (hstr : interner.resolve y = .primitive .str)
    (honce : ¬ interner.IsRefToRefToStr a)
    (h : y = x ∨ interner.unify (interner.resolve y) (interner.resolve x) = true) :
    interner.resolve x = .primitive .str := by
  rcases h with rfl | h
  · exact hstr
  · have hclean := hb.target hy
    rw [hstr] at h hclean
    rcases unify_str (ha.target hx) hclean h with heq | href
    · exact heq
    · exact absurd ⟨x, hx, href⟩ honce

lemma unify_trans (ha : interner.Clean a) (hb : interner.Clean b) (hc : interner.Clean c)
    (hda : interner.Everywhere interner.DerefsOnce a)
    (hdc : interner.Everywhere interner.DerefsOnce c) (hab : interner.unify a b = true)
    (hbc : interner.unify b c = true) : interner.unify a c = true := by
  induction hn : interner.rank b using Nat.strongRecOn generalizing a b c with
  | ind n ih =>
    rw [unify_iff ha hc]
    have hbc' := (unify_iff hb hc).1 hbc
    cases (unify_iff ha hb).1 hab with
    | primitive hpq =>
      cases hbc' with
      | primitive hqr => exact .primitive (samePrimitive_trans hpq hqr)
      | strRef hstr => exact eq_str_of_samePrimitive (samePrimitive_symm hpq) ▸ .strRef hstr
      | strRefMut hstr => exact eq_str_of_samePrimitive (samePrimitive_symm hpq) ▸ .strRefMut hstr
      | within head => cases head
    | strRef hstr =>
      cases hbc' with
      | refStr _ => exact .primitive rfl
      | within head shape components =>
        obtain ⟨z, rfl, hyz⟩ := eq_of_shape (by simp) shape components
        exact .strRef (resolve_eq_str_of_unify hc hb rfl rfl hstr hdc.here.1 hyz)
    | strRefMut hstr =>
      cases hbc' with
      | refMutStr _ => exact .primitive rfl
      | within head shape components =>
        obtain ⟨z, rfl, hyz⟩ := eq_of_shape (by simp) shape components
        exact .strRefMut (resolve_eq_str_of_unify hc hb rfl rfl hstr hdc.here.1 hyz)
    | refStr hstr =>
      cases hbc' with
      | primitive hqr => exact eq_str_of_samePrimitive hqr ▸ .refStr hstr
      | strRef hstr' =>
        refine .within rfl rfl (.cons (.inr ?_) .nil)
        rw [hstr, hstr', unify_iff hb hb]
        exact .primitive rfl
      | strRefMut hstr' => exact absurd ⟨_, rfl, hstr'⟩ hdc.here.2
      | within head => cases head
    | refMutStr hstr => exact absurd ⟨_, rfl, hstr⟩ hda.here.2
    | within head shape components =>
      cases hbc' with
      | primitive _ | strRef _ | strRefMut _ =>
        rw [isUnifiable_of_shape shape] at head
        cases head
      | refStr hstr =>
        obtain ⟨x, rfl, hxy⟩ := eq_of_shape (by simp) shape.symm components.flip
        exact .refStr (resolve_eq_str_of_unify ha hb rfl rfl hstr hda.here.1
          (hxy.imp Eq.symm (unify_symm (ha.target rfl) (hb.target rfl))))
      | refMutStr hstr =>
        obtain ⟨x, rfl, hxy⟩ := eq_of_shape (by simp) shape.symm components.flip
        exact .refMutStr (resolve_eq_str_of_unify ha hb rfl rfl hstr hda.here.1
          (hxy.imp Eq.symm (unify_symm (ha.target rfl) (hb.target rfl))))
      | within head' shape' components' =>
        refine .within head (shape.trans shape') (forall₂_trans_of_mem ?_ components components')
        intro x hx y hy z hz hxy hyz
        rcases hxy with rfl | hxy
        · exact hyz
        · rcases hyz with rfl | hyz
          · exact .inr hxy
          · exact .inr (ih _ (hn ▸ hb.valid.rank_child_lt hy) (ha.child hx) (hb.child hy)
              (hc.child hz) (hda.child hx) (hdc.child hz) hxy hyz rfl)

/-! ## Assignability composes -/

lemma AssignStep.eq_nullable {R : ArType → ArType → Prop}
    (h : interner.AssignStep R (.nullable x) b) : ∃ y, b = .nullable y := by
  cases h with
  | refl => exact ⟨x, rfl⟩
  | lift notNullable h => exact absurd rfl (notNullable x)
  | within head shape components =>
    obtain ⟨y, heq, -⟩ := eq_of_shape (by simp) shape components
    exact ⟨y, heq⟩

lemma resolve_eq_str_of_isAssignable (ha : interner.Clean a) (hb : interner.Clean b)
    (hx : x ∈ refTarget a) (hy : y ∈ refTarget b) (hstr : interner.resolve y = .primitive .str)
    (honce : ¬ interner.IsRefToRefToStr a)
    (h : interner.isAssignable (interner.resolve x) (interner.resolve y) = true) :
    interner.resolve x = .primitive .str := by
  have hclean := hb.target hy
  rw [hstr] at h hclean
  rcases isAssignable_str (ha.target hx) hclean h with heq | href
  · exact heq
  · exact absurd ⟨x, hx, href⟩ honce

/-- Assignability is transitive, from types without references to references to `str`, where the
parameters of function types at both ends dereference at most once. -/
theorem isAssignable_trans (ha : interner.Clean a) (hb : interner.Clean b) (hc : interner.Clean c)
    (hrefs : interner.Everywhere (fun ty => ¬ interner.IsRefToRefToStr ty) a)
    (hparams : interner.Everywhere interner.ParamsDerefOnce a)
    (hparams' : interner.Everywhere interner.ParamsDerefOnce c)
    (hab : interner.isAssignable a b = true) (hbc : interner.isAssignable b c = true) :
    interner.isAssignable a c = true := by
  induction hn : interner.rank a + interner.rank b + interner.rank c using Nat.strongRecOn
    generalizing a b c with
  | ind n ih =>
    have hab' := (isAssignable_iff ha hb).1 hab
    have hbc' := (isAssignable_iff hb hc).1 hbc
    -- the induction hypothesis at components of all three types
    have hcomponents : ∀ x ∈ interner.children a, ∀ y ∈ interner.children b,
        ∀ z ∈ interner.children c,
        interner.isAssignable (interner.resolve x) (interner.resolve y) = true →
        interner.isAssignable (interner.resolve y) (interner.resolve z) = true →
        interner.isAssignable (interner.resolve x) (interner.resolve z) = true := by
      intro x hx y hy z hz hxy hyz
      have hlta := ha.valid.rank_child_lt hx
      have hltb := hb.valid.rank_child_lt hy
      have hltc := hc.valid.rank_child_lt hz
      exact ih _ (by omega) (ha.child hx) (hb.child hy) (hc.child hz) (hrefs.child hx)
        (hparams.child hx) (hparams'.child hz) hxy hyz rfl
    rw [isAssignable_iff ha hc]
    cases hbc' with
    | refl => exact hab'
    | @lift _ z notNullable hlift =>
      have hz : z ∈ interner.children (.nullable z) := mem_singleton_self z
      have hltc := hc.valid.rank_child_lt hz
      refine .lift ?_ (ih _ (by omega) ha hb (hc.child hz) hrefs hparams (hparams'.child hz) hab
        hlift rfl)
      rintro x rfl
      obtain ⟨y, rfl⟩ := hab'.eq_nullable
      exact notNullable y rfl
    | primitive hqr =>
      cases hab' with
      | refl => exact .primitive hqr
      | primitive hpq => exact .primitive (samePrimitive_trans hpq hqr)
      | derefStr hstr => exact eq_str_of_samePrimitive hqr ▸ .derefStr hstr
      | derefMutStr hstr => exact eq_str_of_samePrimitive hqr ▸ .derefMutStr hstr
      | within head shape =>
        rw [isCovariant_of_shape shape] at head
        cases head
    | derefStr hstr =>
      cases hab' with
      | refl => exact .derefStr hstr
      | share hxy =>
        exact .derefMutStr (resolve_eq_str_of_isAssignable ha hb rfl rfl hstr hrefs.here hxy)
      | within head shape components =>
        obtain ⟨x, rfl, hxy⟩ := eq_of_shape (by simp) shape.symm components.flip
        exact .derefStr (resolve_eq_str_of_isAssignable ha hb rfl rfl hstr hrefs.here hxy)
    | derefMutStr hstr =>
      cases hab' with
      | refl => exact .derefMutStr hstr
      | within head shape components =>
        obtain ⟨x, rfl, hxy⟩ := eq_of_shape (by simp) shape.symm components.flip
        exact .derefMutStr (resolve_eq_str_of_isAssignable ha hb rfl rfl hstr hrefs.here hxy)
    | share hyz =>
      cases hab' with
      | refl => exact .share hyz
      | within head shape components =>
        obtain ⟨x, rfl, hxy⟩ := eq_of_shape (by simp) shape.symm components.flip
        exact .share (hcomponents x (mem_singleton_self x) _ (mem_singleton_self _) _
          (mem_singleton_self _) hxy hyz)
    | shareSlice hyz =>
      cases hab' with
      | refl => exact .shareSlice hyz
      | within head shape components =>
        rw [isCovariant_of_shape shape] at head
        cases head
    | within head shape components =>
      cases hab' with
      | refl => exact .within head shape components
      | primitive _ | derefStr _ | derefMutStr _ | func _ _ _ => cases head
      | @lift _ y notNullable hlift =>
        obtain ⟨z, rfl, hyz⟩ := eq_of_shape (by simp) shape components
        have hy : y ∈ interner.children (.nullable y) := mem_singleton_self y
        have hz : z ∈ interner.children (.nullable z) := mem_singleton_self z
        have hltb := hb.valid.rank_child_lt hy
        have hltc := hc.valid.rank_child_lt hz
        exact .lift notNullable (ih _ (by omega) ha (hb.child hy) (hc.child hz) hrefs hparams
          (hparams'.child hz) hlift hyz rfl)
      | share hxy =>
        obtain ⟨z, rfl, hyz⟩ := eq_of_shape (by simp) shape components
        exact .share (hcomponents _ (mem_singleton_self _) _ (mem_singleton_self _) z
          (mem_singleton_self z) hxy hyz)
      | shareSlice hxy =>
        obtain ⟨z, rfl, hyz⟩ := eq_of_shape (by simp) shape components
        exact .shareSlice (hcomponents _ (mem_singleton_self _) _ (mem_singleton_self _) z
          (mem_singleton_self z) hxy hyz)
      | within head' shape' components' =>
        exact .within head' (shape'.trans shape)
          (forall₂_trans_of_mem hcomponents components' components)
    | func len unified hret =>
      cases hab' with
      | refl => exact .func len unified hret
      | within head shape =>
        rw [isCovariant_of_shape shape] at head
        cases head
      | func len' unified' hret' =>
        refine .func (len'.trans len) (forall₂_trans_of_mem ?_ unified' unified)
          (hcomponents _ (mem_append_right _ (mem_singleton_self _)) _
            (mem_append_right _ (mem_singleton_self _)) _
            (mem_append_right _ (mem_singleton_self _)) hret' hret)
        -- the parameters only compose where they dereference once
        intro x hx y hy z hz hxy hyz
        exact unify_trans (ha.child (mem_append_left _ hx)) (hb.child (mem_append_left _ hy))
          (hc.child (mem_append_left _ hz)) (hparams.here _ _ rfl x hx)
          (hparams'.here _ _ rfl z hz) hxy hyz

lemma paramsDerefOnce_of_types
    (htypes : ∀ id < interner.types.length, interner.DerefsOnce (interner.resolve id))
    (h : interner.Valid a) : interner.Everywhere interner.ParamsDerefOnce a := by
  have hvalid : ∀ ty, interner.Valid ty → interner.ParamsDerefOnce ty := by
    rintro ty hty params ret rfl x hx
    have hchild : x ∈ interner.children (.func params ret) := mem_append_left _ hx
    exact .of_types htypes (hty.child hchild) (htypes x (hty.2 x hchild))
  exact .of_types (fun id hid => hvalid _ (resolve_valid hid)) h (hvalid a h)

/-- `int`, `str`, `ref str`, `func(ref str) int`, `func(str) int` and `(func(str) int)?`. -/
def printers : Interner where
  types := [.primitive .int, .primitive .str, .ref 1, .func ⟨0, 1⟩ 0, .func ⟨1, 1⟩ 0, .nullable 4]
  pool := [2, 1]
  admitted := by decide

lemma clean_of_types (htypes : ∀ id < interner.types.length, Plain (interner.resolve id))
    {id : TypeId} (hid : id < interner.types.length) : interner.Clean (interner.resolve id) :=
  ⟨resolve_valid hid, .of_types htypes (resolve_valid hid) (htypes id hid)⟩

theorem isAssignable_trans_printers :
    printers.isAssignable (printers.resolve 3) (printers.resolve 5) = true := by
  have hclean : ∀ id < 6, printers.Clean (printers.resolve id) :=
    fun id hid => clean_of_types (by decide) hid
  have hvalid : ∀ id < 6, printers.Valid (printers.resolve id) := fun id hid => resolve_valid hid
  exact isAssignable_trans (hclean 3 (by decide)) (hclean 4 (by decide)) (hclean 5 (by decide))
    (.of_types (by decide) (hvalid 3 (by decide)) (by decide))
    (paramsDerefOnce_of_types (by decide) (hvalid 3 (by decide)))
    (paramsDerefOnce_of_types (by decide) (hvalid 5 (by decide))) (by decide) (by decide)

/-- `str`, `ref str`, `ref ref str`, `mut ref str`, and the functions from `ref str`, from `str` and
from `mut ref str`. -/
def derefs : Interner where
  types := [.primitive .str, .ref 0, .ref 1, .refMut 0, .func ⟨0, 1⟩ 0, .func ⟨1, 1⟩ 0,
    .func ⟨2, 1⟩ 0]
  pool := [1, 0, 3]
  admitted := by decide

/-- `ref ref str` goes to `ref str` and that to `str`; a function from `ref str` to one from `str`
and that to one from `mut ref str`. Neither goes in one step. -/
theorem isAssignable_not_trans : (∀ id < 7, derefs.Clean (derefs.resolve id)) ∧
      (derefs.isAssignable (derefs.resolve 2) (derefs.resolve 1) = true ∧
        derefs.isAssignable (derefs.resolve 1) (derefs.resolve 0) = true ∧
        derefs.isAssignable (derefs.resolve 2) (derefs.resolve 0) = false) ∧
      derefs.isAssignable (derefs.resolve 4) (derefs.resolve 5) = true ∧
        derefs.isAssignable (derefs.resolve 5) (derefs.resolve 6) = true ∧
        derefs.isAssignable (derefs.resolve 4) (derefs.resolve 6) = false :=
  ⟨fun _ hid => clean_of_types (by decide) hid, by decide, by decide⟩

end Arandu.Types.Interner
