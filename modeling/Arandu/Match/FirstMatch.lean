import Arandu.Match.Run
import Mathlib.Data.List.Sort
import Mathlib.Data.List.Find

/-!
# Source order

A match without guards and bindings is switched on its literal or unit-variant arms. The
arms left over are only looked at behind the default edge, whatever their position, and a
single one of them is run there without a test.
-/

namespace Arandu.Match

open Arandu.Amir Pattern List TypeInfo ArmClass

lemma find?_eq_of_sorted {l l' : List Nat} {p : Nat → Bool}
    (hl : l.Pairwise (· < ·)) (hl' : l'.Pairwise (· < ·))
    (h : ∀ i, p i = true → (i ∈ l ↔ i ∈ l')) : l.find? p = l'.find? p := by
  have hfilter : l.filter p = l'.filter p := by
    apply List.Pairwise.eq_of_mem_iff (hl.filter p) (hl'.filter p)
    intro i
    simp only [mem_filter]
    exact ⟨fun hi => ⟨(h i hi.2).1 hi.1, hi.2⟩, fun hi => ⟨(h i hi.2).2 hi.1, hi.2⟩⟩
  rw [← head?_filter, ← head?_filter, hfilter]

/-! ## Selecting arms by their class -/

variable {i tag : Nat}

section Select

variable {α : Type} {f : ArmClass → Option α} {classes : List ArmClass}

lemma mem_select {a : α} :
    (a, i) ∈ select f classes ↔ ∃ c, classes[i]? = some c ∧ f c = some a := by
  simp only [select, mem_filterMap]
  constructor
  · rintro ⟨⟨c, j⟩, hmem, heq⟩
    obtain ⟨b, hb, hpair⟩ := Option.map_eq_some_iff.1 heq
    cases hpair
    exact ⟨c, mem_zipIdx_iff_getElem?.1 hmem, hb⟩
  · rintro ⟨c, hc, ha⟩
    exact ⟨(c, i), mem_zipIdx_iff_getElem?.2 hc, by simp [ha]⟩

lemma mem_map_snd_select :
    i ∈ (select f classes).map Prod.snd ↔ ∃ c, classes[i]? = some c ∧ (f c).isSome := by
  simp only [mem_map, Prod.exists, exists_eq_right, mem_select]
  constructor
  · rintro ⟨a, c, hc, ha⟩
    exact ⟨c, hc, by simp [ha]⟩
  · rintro ⟨c, hc, hsome⟩
    obtain ⟨a, ha⟩ := Option.isSome_iff_exists.1 hsome
    exact ⟨a, c, hc, ha⟩

lemma select_sorted (f : ArmClass → Option α) (classes : List ArmClass) :
    ((select f classes).map Prod.snd).Pairwise (· < ·) := by
  have hzip : classes.zipIdx.Pairwise fun a b => a.2 < b.2 := by
    rw [pairwise_iff_getElem]
    simp
  rw [pairwise_map]
  refine hzip.filterMap _ ?_
  rintro ⟨c, i⟩ ⟨d, j⟩ hij a ha b hb
  obtain ⟨_, _, rfl⟩ := Option.map_eq_some_iff.1 ha
  obtain ⟨_, _, rfl⟩ := Option.map_eq_some_iff.1 hb
  exact hij

end Select

variable {info : TypeInfo} {ty : TypeId} {arms : List Arm} {v : Value} {guards : Nat → Bool}

lemma getElem?_classifyArms {classify : Pattern → Except LowerError ArmClass}
    {classes : List ArmClass} (h : classifyArms classify arms = .ok classes) (i : Nat)
    (c : ArmClass) :
    classes[i]? = some c ↔ i < arms.length ∧ classify (armAt arms i).pattern = .ok c := by
  induction arms generalizing classes i with
  | nil =>
    cases h
    simp
  | cons arm arms ih =>
    obtain ⟨c₀, hc₀, h⟩ := bind_eq_ok h
    obtain ⟨cs, hcs, h⟩ := bind_eq_ok h
    cases h
    cases i with
    | zero => simp [armAt, hc₀]
    | succ i => simpa [armAt] using ih hcs i

/-! ## Plans that split the arms -/

/-- The arms of `isCase` are switch cases, each with the value it accepts, and the others are
left for the default edge. -/
structure SwitchPlan.Splits (plan : SwitchPlan) (info : TypeInfo) (ty : TypeId)
    (arms : List Arm) (isCase : Pattern → Bool) : Prop where
  sorted : (plan.cases.map Prod.snd).Pairwise (· < ·)
  mem : ∀ i, i ∈ plan.cases.map Prod.snd ↔ i < arms.length ∧ isCase (armAt arms i).pattern = true
  test : ∀ c ∈ plan.cases, ∀ v, (some c.1 == v.switchValue plan.discriminant) =
    (armAt arms c.2).pattern.accepts info ty v
  rest : ∃ rest : List Nat, plan.otherwise = otherwiseOf rest ∧ rest.Pairwise (· < ·) ∧
    ∀ i, i ∈ rest ↔ i < arms.length ∧ isCase (armAt arms i).pattern = false

/-- On the value, the split of the arms keeps the order of the source. -/
structure KeepsOrder (isCase : Pattern → Bool) (info : TypeInfo) (ty : TypeId)
    (arms : List Arm) (v : Value) : Prop where
  /-- If a case accepts the value, no arm that is left over accepts it earlier. -/
  after_case : ∀ i < arms.length, isCase (armAt arms i).pattern = true →
    (armAt arms i).pattern.accepts info ty v = true →
    ∀ j < i, isCase (armAt arms j).pattern = false →
      (armAt arms j).pattern.accepts info ty v = true →
      ∃ k < j, isCase (armAt arms k).pattern = true ∧
        (armAt arms k).pattern.accepts info ty v = true
  /-- If no case accepts the value, an arm that is the only one left over accepts it. -/
  single : ∀ i < arms.length, isCase (armAt arms i).pattern = false →
    (∀ j < arms.length, isCase (armAt arms j).pattern = false → j = i) →
    (∀ j < arms.length, isCase (armAt arms j).pattern = true →
      (armAt arms j).pattern.accepts info ty v = false) →
    (armAt arms i).pattern.accepts info ty v = true

section Splits

variable {plan : SwitchPlan} {isCase : Pattern → Bool}

lemma SwitchPlan.Splits.find?_cases (hplan : plan.Splits info ty arms isCase) (v : Value) :
    (plan.cases.find? fun c => some c.1 == v.switchValue plan.discriminant).map Prod.snd =
      (plan.cases.map Prod.snd).find? fun i => (armAt arms i).pattern.accepts info ty v := by
  rw [find?_map]
  congr 1
  exact find?_congr fun c hc => hplan.test c hc v

lemma SwitchPlan.Splits.chosen_eq (hplan : plan.Splits info ty arms isCase) :
    plan.chosen info ty arms v guards =
      match (plan.cases.map Prod.snd).find? fun i => (armAt arms i).pattern.accepts info ty v with
      | some i => some i
      | none =>
        match plan.otherwise with
        | .arm i => some i
        | .chain indices => indices.find? (armAccepts info ty arms v guards)
        | .unreachable => none := by
  rw [← hplan.find?_cases v, SwitchPlan.chosen]
  cases plan.cases.find? fun c => some c.1 == v.switchValue plan.discriminant with
  | some c => rfl
  | none => rfl

variable (hplan : plan.Splits info ty arms isCase)
  (hguards : ∀ i, armAccepts info ty arms v guards i = (armAt arms i).pattern.accepts info ty v)
include hplan hguards

/-- A case accepts: the first arm is taken iff no arm left over accepts before it. -/
lemma SwitchPlan.Splits.chosen_of_case {m : Nat} (hm : ((plan.cases.map Prod.snd).find? fun i =>
      (armAt arms i).pattern.accepts info ty v) = some m) :
    plan.chosen info ty arms v guards = firstMatch info ty arms v guards ↔
      KeepsOrder isCase info ty arms v := by
  have hchosen : plan.chosen info ty arms v guards = some m := by rw [hplan.chosen_eq, hm]
  have hacc := find?_some hm
  obtain ⟨hlt, hcase⟩ := (hplan.mem m).1 (mem_of_find?_eq_some hm)
  -- no case below `m` accepts
  have hmin : ∀ j < m, isCase (armAt arms j).pattern = true →
      (armAt arms j).pattern.accepts info ty v = false := by
    intro j hj hjcase
    obtain ⟨_, as, bs, heq, has⟩ := find?_eq_some_iff_append.1 hm
    have hjmem := (hplan.mem j).2 ⟨lt_trans hj hlt, hjcase⟩
    have hsorted := hplan.sorted
    rw [heq] at hjmem hsorted
    rcases mem_append.1 hjmem with hjas | hjbs
    · simpa using has j hjas
    · rcases mem_cons.1 hjbs with rfl | hjbs
      · exact absurd hj (lt_irrefl _)
      · have := (pairwise_cons.1 (pairwise_append.1 hsorted).2.1).1 j hjbs
        exact absurd this (Nat.lt_asymm hj)
  rw [hchosen, eq_comm, firstMatch, find?_range_eq_some]
  constructor
  · rintro ⟨-, -, hfirst⟩
    refine ⟨fun i hi hicase hiacc j hj hjcase hjacc => ?_, fun i hi hicase honly hnone => ?_⟩
    · refine ⟨m, ?_, hcase, hacc⟩
      by_contra hle
      rcases Nat.lt_or_eq_of_le (not_lt.1 hle) with hlt' | rfl
      · have := hfirst j hlt'
        simp [hguards, hjacc] at this
      · simp [hcase] at hjcase
    · have := hnone m hlt hcase
      simp [hacc] at this
  · intro horder
    refine ⟨by rw [hguards]; exact hacc, by simpa using hlt, fun j hj => ?_⟩
    rw [hguards, Bool.not_eq_true_eq_eq_false]
    cases hjcase : isCase (armAt arms j).pattern with
    | true => exact hmin j hj hjcase
    | false =>
      by_contra hjacc
      obtain ⟨k, hk, hkcase, hkacc⟩ :=
        horder.after_case m hlt hcase hacc j hj hjcase (by simpa using hjacc)
      simp [hmin k (lt_trans hk hj) hkcase] at hkacc

/-- No case accepts: only a single arm left over can go wrong. -/
lemma SwitchPlan.Splits.chosen_of_rest (hnone : ((plan.cases.map Prod.snd).find? fun i =>
      (armAt arms i).pattern.accepts info ty v) = none) :
    plan.chosen info ty arms v guards = firstMatch info ty arms v guards ↔
      KeepsOrder isCase info ty arms v := by
  obtain ⟨rest, hrest, hsorted, hmem⟩ := hplan.rest
  have hcases : ∀ j < arms.length, isCase (armAt arms j).pattern = true →
      (armAt arms j).pattern.accepts info ty v = false := fun j hj hjcase => by
    simpa using find?_eq_none.1 hnone j ((hplan.mem j).2 ⟨hj, hjcase⟩)
  have hfirst : firstMatch info ty arms v guards =
      rest.find? (armAccepts info ty arms v guards) := by
    apply find?_eq_of_sorted pairwise_lt_range hsorted
    intro i hi
    rw [hguards] at hi
    rw [mem_range, hmem]
    refine ⟨fun hlt => ⟨hlt, ?_⟩, fun h => h.1⟩
    cases hicase : isCase (armAt arms i).pattern with
    | false => rfl
    | true => simp [hcases i hlt hicase] at hi
  have hafter (hsingle) : KeepsOrder isCase info ty arms v :=
    ⟨fun i hi hicase hiacc => by simp [hcases i hi hicase] at hiacc, hsingle⟩
  rw [hplan.chosen_eq, hnone, hrest, hfirst]
  match rest, hmem with
  | [], hmem =>
    refine ⟨fun _ => hafter fun i hi hicase => ?_, fun _ => rfl⟩
    exact absurd ((hmem i).2 ⟨hi, hicase⟩) not_mem_nil
  | [i], hmem =>
    obtain ⟨hi, hicase⟩ := (hmem i).1 (mem_singleton.2 rfl)
    have hval : (some i = [i].find? (armAccepts info ty arms v guards)) ↔
        (armAt arms i).pattern.accepts info ty v = true := by
      rw [← hguards i]
      cases h : armAccepts info ty arms v guards i <;> simp [h]
    refine hval.trans ⟨fun hacc => hafter fun j hj hjcase _ _ => ?_, fun horder => ?_⟩
    · rw [mem_singleton.1 ((hmem j).2 ⟨hj, hjcase⟩)]
      exact hacc
    · exact horder.single i hi hicase
        (fun j hj hjcase => mem_singleton.1 ((hmem j).2 ⟨hj, hjcase⟩)) hcases
  | i :: j :: rest, hmem =>
    refine ⟨fun _ => hafter fun k hk hkcase honly _ => ?_, fun _ => rfl⟩
    -- two arms left over are distinct, so neither is the only one
    obtain ⟨hi, hicase⟩ := (hmem i).1 (by simp)
    obtain ⟨hj, hjcase⟩ := (hmem j).1 (by simp)
    have hij : i < j := (pairwise_cons.1 hsorted).1 j (by simp)
    rw [honly i hi hicase, honly j hj hjcase] at hij
    exact absurd hij (lt_irrefl _)

lemma SwitchPlan.Splits.chosen_eq_firstMatch_iff :
    plan.chosen info ty arms v guards = firstMatch info ty arms v guards ↔
      KeepsOrder isCase info ty arms v := by
  cases h : (plan.cases.map Prod.snd).find? fun i => (armAt arms i).pattern.accepts info ty v with
  | some m => exact hplan.chosen_of_case hguards h
  | none => exact hplan.chosen_of_rest hguards h

end Splits

/-! ## Enum plans -/

/-- The arms a switch on a scrutinee of the type has cases for. -/
def isCase : ArType → Pattern → Bool
  | .named _ _, .enum _ _ _ [] => true
  | .named _ _, .typeTuple _ [] => true
  | .primitive .int, .literal lit => lit.toI128.isSome
  | .intLiteral, .literal lit => lit.toI128.isSome
  | _, _ => false

/-- A path ends in a single name iff that is its last segment. -/
lemma getLast_beq_isSuffixOf (name : String) (path : List String) :
    (path.getLast?.map (fun n => [n]) == some [name]) = [name].isSuffixOf path := by
  rw [Bool.eq_iff_iff, isSuffixOf_iff_suffix, beq_iff_eq]
  cases hlast : path.getLast? with
  | none => simp [getLast?_eq_none_iff.1 hlast]
  | some last =>
    obtain ⟨init, rfl⟩ := getLast?_eq_some_iff.1 hlast
    simp [eq_comm]

variable {sym : SymbolId} {variant : List String} {args : DenseRange} {p : Pattern} {arm : Arm}

/-- Both ways of resolving a name give the same tag: the last segment of a path is a single
name, and for single names it is what the path ends in. -/
lemma namedVariant_of_enumVariantTag
    (ty : ArType) (h : enumVariantTag info sym variant none = .ok tag) :
    ∃ types, info.namedVariant sym variant ty = some (tag, types) := by
  simp only [enumVariantTag] at h
  by_cases hsingle : ∃ name, variant = [name]
  · obtain ⟨name, rfl⟩ := hsingle
    simp only [getLast_beq_isSuffixOf] at h
    rw [← variantByName] at h
    unfold namedVariant
    cases he : info.variantByName sym [name] with
    | some e =>
      rw [he] at h
      cases h
      exact ⟨_, rfl⟩
    | none =>
      simp only [he, Option.bind_none] at h ⊢
      split at h
      next t ht =>
        cases h
        exact ⟨[], by rw [ht]; rfl⟩
      · cases h
  · have hlast : (info.enumVariants.find? fun e => e.owner == sym &&
        e.path.getLast?.map (fun n => [n]) == some variant) = none := by
      rw [find?_eq_none]
      intro e _ he
      obtain ⟨_, heq⟩ := Bool.and_eq_true_iff.1 he
      obtain ⟨name, _, rfl⟩ := Option.map_eq_some_iff.1 (beq_iff_eq.1 heq)
      exact hsingle ⟨name, rfl⟩
    have hbuiltin : info.builtinTag sym variant = none := by
      unfold builtinTag
      split
      next name => exact absurd ⟨name, rfl⟩ hsingle
      · rfl
    rw [hlast, hbuiltin] at h
    unfold namedVariant
    cases he : info.variantByName sym variant with
    | some e =>
      simp only [he] at h
      cases h
      exact ⟨_, rfl⟩
    | none =>
      simp only [he] at h
      cases h

lemma enumVariant_of_enumVariantTag {symbol : Option SymbolId} (ty : ArType)
    (h : enumVariantTag info sym variant symbol = .ok tag) :
    ∃ types, info.enumVariant sym variant symbol ty = some (tag, types) := by
  unfold enumVariant
  cases hsym : symbol.bind info.variantBySymbol with
  | some e =>
    simp only [enumVariantTag, hsym] at h
    cases h
    exact ⟨_, rfl⟩
  | none =>
    refine namedVariant_of_enumVariantTag ty ?_
    simpa only [enumVariantTag, hsym, Option.bind_none] using h

/-- Enum patterns name the enum of the scrutinee; the type checker unifies the two. -/
def ArmsTyped (valueTy : ArType) (arms : List Arm) : Prop :=
  ∀ arm ∈ arms, ∀ owner variant symbol payload sym args,
    arm.pattern = .enum owner variant symbol payload → valueTy = .named sym args → owner = sym

lemma peel_named
    (hty : info.interner.resolve ty = .named sym args) : info.peel ty = .named sym args := by
  simp [peel, hty, peel.go]

def ArmClass.Fits (valueTy : ArType) (p : Pattern) : ArmClass → Prop
  | .unitVariant _ => isCase valueTy p = true
  | .wildcard => isCase valueTy p = false ∧ p = .wildcard
  | .intLiteral _ => False
  | .complex => isCase valueTy p = false ∧ p ≠ .wildcard

lemma classifyEnumArm_fits (args : DenseRange) {c : ArmClass}
    (h : classifyEnumArm info sym p = .ok c) : c.Fits (.named sym args) p := by
  unfold classifyEnumArm at h
  split at h
  · cases h
    exact ⟨rfl, rfl⟩
  case h_2 | h_3 =>
    obtain ⟨tag, _, h⟩ := bind_eq_ok h
    cases h
    rfl
  next hwild henum htuple =>
    cases h
    refine ⟨?_, hwild⟩
    unfold isCase
    split
    · exact absurd rfl (henum _ _ _)
    · exact absurd rfl (htuple _)
    next hty => cases hty
    next hty => cases hty
    · rfl

lemma switchValue_tag_beq (tag : Nat) (v : Value) :
    (some (tag : Int) == v.switchValue .tag) = (v.discriminant == some tag) := by
  cases v with
  | variant t payload =>
    rw [Bool.eq_iff_iff, beq_iff_eq, beq_iff_eq]
    simp only [Value.switchValue, Value.discriminant, Option.some.injEq, Nat.cast_inj]
    exact eq_comm
  | _ => rfl

lemma accepts_of_classifyEnumArm (hty : info.interner.resolve ty = .named sym args)
    (howner : ∀ owner variant symbol payload,
      arm.pattern = .enum owner variant symbol payload → owner = sym)
    (h : classifyEnumArm info sym arm.pattern = .ok (.unitVariant tag)) (v : Value) :
    arm.pattern.accepts info ty v = (v.discriminant == some tag) := by
  unfold classifyEnumArm at h
  split at h
  · cases h
  next owner variant symbol hp =>
    obtain ⟨t, htag, h⟩ := bind_eq_ok h
    cases h
    cases howner _ _ _ _ hp
    obtain ⟨types, htypes⟩ := enumVariant_of_enumVariantTag (info.peel ty) htag
    simp [hp, accepts, htypes, acceptsAll]
  next name hp =>
    obtain ⟨t, htag, h⟩ := bind_eq_ok h
    cases h
    obtain ⟨types, htypes⟩ := namedVariant_of_enumVariantTag (info.peel ty) htag
    rw [peel_named hty] at htypes
    simp [hp, accepts, peel_named hty, tupleVariant, htypes, acceptsAll]
  · cases h

/-- When a switch is emitted. -/
structure Switched (valueTy : ArType) (arms : List Arm) : Prop where
  unguarded : ∀ arm ∈ arms, arm.guarded = false
  unbound : ∀ arm ∈ arms, arm.pattern.hasBindings = false
  case : ∃ arm ∈ arms, isCase valueTy arm.pattern = true
  /-- A nominal type is only switched on if the other arms are wildcards. -/
  simple : ∀ sym args, valueTy = .named sym args →
    ∀ arm ∈ arms, isCase valueTy arm.pattern = true ∨ arm.pattern = .wildcard

lemma armAt_mem (hi : i < arms.length) : armAt arms i ∈ arms := by
  simp [armAt, getElem?_eq_getElem hi]

lemma exists_armAt (harm : arm ∈ arms) : ∃ i < arms.length, armAt arms i = arm := by
  obtain ⟨i, hi, rfl⟩ := mem_iff_getElem.1 harm
  exact ⟨i, hi, by simp [armAt, getElem?_eq_getElem hi]⟩

variable {plan : Option SwitchPlan}

section EnumPlan

variable {sym : SymbolId} {args : DenseRange} {classes : List ArmClass}

lemma exists_class (args : DenseRange)
    (h : classifyArms (classifyEnumArm info sym) arms = .ok classes) (hi : i < arms.length) :
    ∃ c, classes[i]? = some c ∧ c.Fits (.named sym args) (armAt arms i).pattern := by
  have hlen : ∀ {arms : List Arm} {classes : List ArmClass},
      classifyArms (classifyEnumArm info sym) arms = .ok classes →
        classes.length = arms.length := by
    intro arms
    induction arms with
    | nil =>
      intro classes h
      cases h
      rfl
    | cons arm arms ih =>
      intro classes h
      obtain ⟨c, _, h⟩ := bind_eq_ok h
      obtain ⟨cs, hcs, h⟩ := bind_eq_ok h
      cases h
      simp [ih hcs]
  have hi' : i < classes.length := (hlen h).symm ▸ hi
  have hc := getElem?_eq_getElem hi'
  exact ⟨_, hc, classifyEnumArm_fits _ ((getElem?_classifyArms h i _).1 hc).2⟩

lemma buildEnumSwitchPlan_some {plan : SwitchPlan}
    (hty : info.interner.resolve ty = .named sym args) (htyped : ArmsTyped (.named sym args) arms)
    (h : buildEnumSwitchPlan info sym arms = .ok (some plan)) :
    plan.Splits info ty arms (isCase (.named sym args)) := by
  obtain ⟨classes, hclasses, h⟩ := bind_eq_ok h
  dsimp only at h
  split at h
  · cases h
  next hsimple =>
    cases h
    rw [Bool.or_eq_true, not_or] at hsimple
    have hclass := getElem?_classifyArms hclasses
    refine ⟨select_sorted _ _, fun i => ?_, fun ⟨k, i⟩ hc v => ?_, _, rfl, select_sorted _ _,
      fun i => ?_⟩
    · rw [mem_map_snd_select]
      constructor
      · rintro ⟨c, hc, hsome⟩
        obtain ⟨hi, hci⟩ := (hclass i c).1 hc
        cases c with
        | unitVariant tag => exact ⟨hi, classifyEnumArm_fits _ hci⟩
        | _ => cases hsome
      · rintro ⟨hi, hicase⟩
        obtain ⟨c, hc, hfits⟩ := exists_class args hclasses hi
        refine ⟨c, hc, ?_⟩
        cases c with
        | unitVariant tag => rfl
        | intLiteral value => exact hfits.elim
        | wildcard | complex => simp [hfits.1] at hicase
    · obtain ⟨c, hc, hk⟩ := mem_select.1 hc
      obtain ⟨hi, hci⟩ := (hclass i c).1 hc
      cases c with
      | unitVariant tag =>
        cases hk
        rw [switchValue_tag_beq]
        refine (accepts_of_classifyEnumArm hty (fun _ _ _ _ hp => ?_) hci v).symm
        exact htyped _ (armAt_mem hi) _ _ _ _ _ _ hp rfl
      | _ => cases hk
    · rw [mem_map_snd_select]
      constructor
      · rintro ⟨c, hc, hsome⟩
        obtain ⟨hi, hci⟩ := (hclass i c).1 hc
        cases c with
        | wildcard => exact ⟨hi, (classifyEnumArm_fits _ hci).1⟩
        | _ => cases hsome
      · rintro ⟨hi, hicase⟩
        obtain ⟨c, hc, hfits⟩ := exists_class args hclasses hi
        refine ⟨c, hc, ?_⟩
        cases c with
        | wildcard => rfl
        | unitVariant tag => simp [ArmClass.Fits, hicase] at hfits
        | intLiteral value => exact hfits.elim
        | complex => exact absurd (any_eq_true.2 ⟨_, mem_of_getElem? hc, rfl⟩) hsimple.1

lemma buildEnumSwitchPlan_isSome_iff (args : DenseRange)
    (h : buildEnumSwitchPlan info sym arms = .ok plan) :
    plan.isSome ↔ (∃ arm ∈ arms, isCase (.named sym args) arm.pattern = true) ∧
      ∀ arm ∈ arms, isCase (.named sym args) arm.pattern = true ∨ arm.pattern = .wildcard := by
  obtain ⟨classes, hclasses, h⟩ := bind_eq_ok h
  have hclass := getElem?_classifyArms hclasses
  have hunits : (select unitTag classes).isEmpty = false ↔
      ∃ arm ∈ arms, isCase (.named sym args) arm.pattern = true := by
    rw [isEmpty_eq_false_iff_exists_mem]
    constructor
    · rintro ⟨⟨k, i⟩, hmem⟩
      obtain ⟨c, hc, hk⟩ := mem_select.1 hmem
      obtain ⟨hi, hci⟩ := (hclass i c).1 hc
      cases c with
      | unitVariant tag => exact ⟨_, armAt_mem hi, classifyEnumArm_fits _ hci⟩
      | _ => cases hk
    · rintro ⟨arm, harm, hcase⟩
      obtain ⟨i, hi, rfl⟩ := exists_armAt harm
      obtain ⟨c, hc, hfits⟩ := exists_class args hclasses hi
      cases c with
      | unitVariant tag => exact ⟨((tag : Int), i), mem_select.2 ⟨_, hc, rfl⟩⟩
      | intLiteral value => exact hfits.elim
      | wildcard | complex => simp [hfits.1] at hcase
  have hcomplex : classes.any isComplex = false ↔
      ∀ arm ∈ arms, isCase (.named sym args) arm.pattern = true ∨ arm.pattern = .wildcard := by
    rw [any_eq_false]
    constructor
    · intro hall arm harm
      obtain ⟨i, hi, rfl⟩ := exists_armAt harm
      obtain ⟨c, hc, hfits⟩ := exists_class args hclasses hi
      cases c with
      | unitVariant tag => exact .inl hfits
      | wildcard => exact .inr hfits.2
      | intLiteral value => exact hfits.elim
      | complex => exact absurd rfl (hall _ (mem_of_getElem? hc))
    · intro hall c hc
      obtain ⟨i, hci⟩ := mem_iff_getElem?.1 hc
      obtain ⟨hi, hci⟩ := (hclass i c).1 hci
      have hfits := classifyEnumArm_fits args hci
      cases c with
      | unitVariant tag | wildcard => simp [isComplex]
      | intLiteral value => exact hfits.elim
      | complex =>
        rcases hall _ (armAt_mem hi) with hcase | hwild
        · simp [hfits.1] at hcase
        · exact absurd hwild hfits.2
  rw [← hunits, ← hcomplex]
  dsimp only at h
  split at h
  next hor =>
    cases h
    simp only [Option.isSome_none, Bool.false_eq_true, false_iff, not_and]
    intro hunit hcomplex
    simp [hunit, hcomplex] at hor
  next hor =>
    cases h
    simpa [and_comm] using hor

end EnumPlan

/-! ## Integer plans -/

section IntPlan

variable {valueTy : ArType}

/-- The types of integer switches. -/
def IsIntScrutinee (valueTy : ArType) : Prop :=
  valueTy = .primitive .int ∨ valueTy = .intLiteral

lemma isCase_literal (hint : IsIntScrutinee valueTy) (lit : Lit) :
    isCase valueTy (.literal lit) = lit.toI128.isSome := by
  rcases hint with rfl | rfl <;> rfl

lemma literalValue_classifyIntArm (hint : IsIntScrutinee valueTy) (p : Pattern) :
    (classifyIntArm p).literalValue.isSome = isCase valueTy p := by
  cases p with
  | literal lit =>
    rw [isCase_literal hint, classifyIntArm]
    cases lit.toI128 <;> rfl
  | _ => rcases hint with rfl | rfl <;> rfl

lemma isRest_classifyIntArm (p : Pattern) :
    (classifyIntArm p).isRest.isSome = !(classifyIntArm p).literalValue.isSome := by
  cases classifyIntArm p <;> rfl

lemma accepts_of_classifyIntArm {k : Int}
    (h : (classifyIntArm p).literalValue = some k) (v : Value) :
    (some k == v.switchValue .value) = p.accepts info ty v := by
  unfold classifyIntArm at h
  split at h
  · cases h
  next lit =>
    split at h
    next k' hk =>
      cases h
      cases lit with
      | int lexeme =>
        have hvalue : lexeme.value = some k := IntLexeme.value_of_toI128 hk
        cases v <;> simp [accepts, Lit.isValue, Value.switchValue, hvalue]
      | _ => cases hk
    · cases h
  · cases h

lemma getElem?_map_classify (i : Nat) (c : ArmClass) :
    (arms.map fun arm => classifyIntArm arm.pattern)[i]? = some c ↔
      i < arms.length ∧ classifyIntArm (armAt arms i).pattern = c := by
  by_cases hi : i < arms.length
  · simp [armAt, hi]
  · simp [hi]

lemma buildIntSwitchPlan_some {plan : SwitchPlan} (hint : IsIntScrutinee valueTy)
    (h : buildIntSwitchPlan arms = some plan) : plan.Splits info ty arms (isCase valueTy) := by
  unfold buildIntSwitchPlan at h
  dsimp only at h
  split at h
  · cases h
  cases h
  refine ⟨select_sorted _ _, fun i => ?_, fun ⟨k, i⟩ hc v => ?_, _, rfl, select_sorted _ _,
    fun i => ?_⟩
  · simp only [mem_map_snd_select, getElem?_map_classify, ← literalValue_classifyIntArm hint]
    exact ⟨fun ⟨c, ⟨hi, hc⟩, hsome⟩ => ⟨hi, hc ▸ hsome⟩, fun ⟨hi, hsome⟩ => ⟨_, ⟨hi, rfl⟩, hsome⟩⟩
  · obtain ⟨c, hc, hk⟩ := mem_select.1 hc
    obtain ⟨hi, rfl⟩ := (getElem?_map_classify i c).1 hc
    exact accepts_of_classifyIntArm hk v
  · simp only [mem_map_snd_select, getElem?_map_classify, ← literalValue_classifyIntArm hint]
    constructor
    · rintro ⟨c, ⟨hi, rfl⟩, hsome⟩
      rw [isRest_classifyIntArm] at hsome
      exact ⟨hi, by simpa using hsome⟩
    · rintro ⟨hi, hnone⟩
      exact ⟨_, ⟨hi, rfl⟩, by rw [isRest_classifyIntArm, hnone]; rfl⟩

lemma buildIntSwitchPlan_isSome_iff (arms : List Arm) (hint : IsIntScrutinee valueTy) :
    (buildIntSwitchPlan arms).isSome ↔ ∃ arm ∈ arms, isCase valueTy arm.pattern = true := by
  have hmem : (select literalValue
      (arms.map fun arm => classifyIntArm arm.pattern)).isEmpty = false ↔
      ∃ arm ∈ arms, isCase valueTy arm.pattern = true := by
    rw [isEmpty_eq_false_iff_exists_mem]
    constructor
    · rintro ⟨⟨k, i⟩, hmem⟩
      obtain ⟨c, hc, hk⟩ := mem_select.1 hmem
      obtain ⟨hi, rfl⟩ := (getElem?_map_classify i c).1 hc
      exact ⟨_, armAt_mem hi, by rw [← literalValue_classifyIntArm hint, hk]; rfl⟩
    · rintro ⟨arm, harm, hcase⟩
      obtain ⟨i, hi, rfl⟩ := exists_armAt harm
      rw [← literalValue_classifyIntArm hint] at hcase
      obtain ⟨k, hk⟩ := Option.isSome_iff_exists.1 hcase
      exact ⟨(k, i), mem_select.2 ⟨_, (getElem?_map_classify i _).2 ⟨hi, rfl⟩, hk⟩⟩
  rw [← hmem, buildIntSwitchPlan]
  split
  next hempty => simp [hempty]
  next hempty => simpa using hempty

end IntPlan

/-! ## The first matching arm -/

/-- If a switch is emitted for the arms, its split of them keeps their order on the value. -/
def InSourceOrder (info : TypeInfo) (ty : TypeId) (arms : List Arm) (v : Value) : Prop :=
  Switched (info.interner.resolve ty) arms →
    KeepsOrder (isCase (info.interner.resolve ty)) info ty arms v

lemma buildMatchSwitchPlan_isSome_iff {valueTy : ArType}
    (h : buildMatchSwitchPlan info valueTy arms = .ok plan) :
    plan.isSome ↔ Switched valueTy arms := by
  unfold buildMatchSwitchPlan at h
  split at h
  next hguarded =>
    cases h
    obtain ⟨arm, harm, hg⟩ := any_eq_true.1 hguarded
    refine ⟨nofun, fun hswitched => ?_⟩
    simp [hswitched.unguarded arm harm] at hg
  next hguarded =>
    have hunguarded : ∀ arm ∈ arms, arm.guarded = false := by simpa using hguarded
    split at h
    next hbound =>
      cases h
      obtain ⟨arm, harm, hb⟩ := any_eq_true.1 hbound
      refine ⟨nofun, fun hswitched => ?_⟩
      simp [hswitched.unbound arm harm] at hb
    next hbound =>
      have hunbound : ∀ arm ∈ arms, arm.pattern.hasBindings = false := by simpa using hbound
      have hint (hty : IsIntScrutinee valueTy) (hplan : buildIntSwitchPlan arms = plan) :
          plan.isSome ↔ Switched valueTy arms := by
        rw [← hplan, buildIntSwitchPlan_isSome_iff arms hty]
        refine ⟨fun hcase => ⟨hunguarded, hunbound, hcase, ?_⟩, fun hswitched => hswitched.case⟩
        rintro sym args rfl
        rcases hty with hty | hty <;> cases hty
      split at h
      next sym args =>
        rw [buildEnumSwitchPlan_isSome_iff args h]
        refine ⟨fun hplan => ⟨hunguarded, hunbound, hplan.1, fun _ _ _ => hplan.2⟩,
          fun hswitched => ?_⟩
        exact ⟨hswitched.case, hswitched.simple sym args rfl⟩
      · exact hint (.inl rfl) (Except.ok.inj h)
      · exact hint (.inr rfl) (Except.ok.inj h)
      next hnamed hprim hlit =>
        cases h
        refine ⟨nofun, fun hswitched => ?_⟩
        obtain ⟨arm, _, hcase⟩ := hswitched.case
        unfold isCase at hcase
        split at hcase <;> simp_all

lemma buildMatchSwitchPlan_splits {plan : SwitchPlan}
    (htyped : ArmsTyped (info.interner.resolve ty) arms)
    (h : buildMatchSwitchPlan info (info.interner.resolve ty) arms = .ok (some plan)) :
    plan.Splits info ty arms (isCase (info.interner.resolve ty)) := by
  unfold buildMatchSwitchPlan at h
  split at h
  · cases h
  split at h
  · cases h
  split at h
  next sym args hty =>
    rw [hty] at htyped ⊢
    exact buildEnumSwitchPlan_some hty htyped h
  next hty => exact buildIntSwitchPlan_some (.inl hty) (Except.ok.inj h)
  next hty => exact buildIntSwitchPlan_some (.inr hty) (Except.ok.inj h)
  · cases h

lemma armAccepts_of_unguarded (h : ∀ arm ∈ arms, arm.guarded = false) (i : Nat) :
    armAccepts info ty arms v guards i = (armAt arms i).pattern.accepts info ty v := by
  by_cases hi : i < arms.length
  · simp [armAccepts, h _ (armAt_mem hi)]
  · simp [armAccepts, armAt, getElem?_eq_none (not_lt.1 hi)]

/-- The arm chosen is the first that matches, exactly in source order. -/
lemma chosenBy_eq_firstMatch_iff (htyped : ArmsTyped (info.interner.resolve ty) arms)
    (hplan : buildMatchSwitchPlan info (info.interner.resolve ty) arms = .ok plan) :
    chosenBy plan info ty arms v guards = firstMatch info ty arms v guards ↔
      InSourceOrder info ty arms v := by
  have hswitched := buildMatchSwitchPlan_isSome_iff hplan
  cases plan with
  | none =>
    -- without a switch the arms are tested in order
    refine ⟨fun _ h => ?_, fun _ => rfl⟩
    cases hswitched.2 h
  | some plan =>
    have hsw := hswitched.1 rfl
    have hsplits := buildMatchSwitchPlan_splits htyped hplan
    rw [chosenBy, hsplits.chosen_eq_firstMatch_iff (armAccepts_of_unguarded hsw.unguarded)]
    exact ⟨fun h _ => h, fun h => h hsw⟩

/-- Tables with the type `Int` only. -/
def intInfo : TypeInfo where
  interner := ⟨[.primitive .int]⟩
  typeArgs := fun _ => []
  enumVariants := []
  instantiate := fun _ _ types => types
  structFields := fun _ => []
  builtinVariants := fun _ => []
  floatEqual := fun _ _ => false

def digit (c : Char) (h : IsDecimal c) : Lit := .int ⟨[c], by simpa using h⟩

def upToEight : Pattern := .range (digit '0' (by decide)) true (digit '8' (by decide))

def five : Pattern := .literal (digit '5' (by decide))

/-- `match v { 0..=8 => …, 5 => …, _ => … }` -/
def rangeThenLiteral : List Arm := [⟨upToEight, false⟩, ⟨five, false⟩, ⟨.wildcard, false⟩]

/-- `match v { 5 => …, 0..=8 => … }` -/
def literalThenRange : List Arm := [⟨five, false⟩, ⟨upToEight, false⟩]

end Arandu.Match
