import Arandu.Mir.Moves.Cover
import Mathlib.Data.List.GetD

/-!
# Where the value of a temp comes from

`ComesFrom` says which place the value of a temp was taken from, without a look at the checker: a
temp with a single definition was loaded from the place, or is a copy or a payload of such a temp;
a parameter comes from its local. A temp with several definitions comes from nowhere.

`temp_origins` finds all of these (`ComesFrom.origin`). Its rounds end in a table that no statement
changes, and an entry is the origin of the rvalue that its temp is assigned (`Explained`). A table
that knows fewer origins describes fewer accesses, and these are clean where those of the larger
table are (`Thinner`).
-/

namespace Arandu.Mir

open Arandu.Amir Arandu.Library List

variable {f : AmirFunc} {o o' : Origins} {t : TempId} {place : AmirPlace} {rhs : AmirRvalue}

/-! ## Single definitions -/

/-- The assignment is the only definition of the temp: no other statement assigns the temp, and it
is no parameter. -/
structure DefinedOnce (f : AmirFunc) (t : TempId) (rhs : AmirRvalue) : Prop where
  declared : t < f.temps.length
  assigned : ∃ b, .assign t rhs ∈ f.blockStmts b
  once : definitionCount f t = 1
  notParam : t ∉ f.params
  notBlockParam : ∀ b, ∀ p ∈ f.blockParamsOf b, p.id ≠ t

/-- The value of the temp was taken from the place. -/
inductive ComesFrom (f : AmirFunc) : TempId → AmirPlace → Prop
  /-- A parameter, which no statement assigns, holds the local of its position. -/
  | param {i : Nat} {t : TempId} (hdeclared : t < f.temps.length) (hparam : f.params[i]? = some t)
      (honly : ∀ j, f.params[j]? = some t → j = i) (hassigned : definitionCount f t = 0)
      (hblock : ∀ b, ∀ p ∈ f.blockParamsOf b, p.id ≠ t) : ComesFrom f t ⟨i, []⟩
  /-- A parameter of a block holds the local it stands for. -/
  | blockParam {b : BlockId} {p : BlockParam} (hdeclared : p.id < f.temps.length)
      (hparam : p ∈ f.blockParamsOf b)
      (honly : ∀ b', ∀ p' ∈ f.blockParamsOf b', p'.id = p.id → p' = p)
      (hassigned : definitionCount f p.id = 0) (hfunc : p.id ∉ f.params) :
      ComesFrom f p.id ⟨p.localId, []⟩
  | load {t : TempId} {place : AmirPlace} (h : DefinedOnce f t (.load place)) : ComesFrom f t place
  /-- A copy has the origin of its source. -/
  | use {t source : TempId} {op : AmirOperand} {place : AmirPlace} (h : DefinedOnce f t (.use op))
      (hop : op.temp? = some source) (hfrom : ComesFrom f source place) : ComesFrom f t place
  /-- A payload is a part of the place the enum comes from. -/
  | payload {t source : TempId} {value : AmirOperand} {variant : SymbolId} {tag index : Nat}
      {fieldTy : TypeId} {tupleTy : Option TypeId} {place : AmirPlace}
      (h : DefinedOnce f t (.enumPayload value variant tag index fieldTy tupleTy))
      (hvalue : value.temp? = some source) (hfrom : ComesFrom f source place) :
      ComesFrom f t { place with projections := place.projections ++
        [.variant tag, .payload tag index fieldTy tupleTy] }

/-- A table of origins that says nothing but where temps come from. -/
def OriginsTrue (f : AmirFunc) (origins : Origins) : Prop :=
  ∀ t place, originFor origins t = some place → ComesFrom f t place

/-! ## Parameters -/

section Writes

variable {α : Type} {key : α → TempId} {val : α → AmirPlace} {l : List α}

lemma originFor_set (o : Origins) (t : TempId) (place : AmirPlace) :
    originFor (o.set t (some place)) t = some place ∨ o.length ≤ t := by
  by_cases ht : t < o.length
  · exact .inl (by simp [originFor, ht])
  · exact .inr (not_lt.1 ht)

lemma originFor_set_ne {t' : TempId} (hne : t ≠ t') (p : Option AmirPlace) :
    originFor (o.set t p) t' = originFor o t' := by
  simp [originFor, getElem?_set_ne hne]

lemma length_writes : (l.foldl (fun o x => o.set (key x) (some (val x))) o).length = o.length := by
  induction l generalizing o with
  | nil => rfl
  | cons x l ih => exact ih.trans length_set

lemma originFor_writes_of_not (h : ∀ x ∈ l, key x ≠ t) :
    originFor (l.foldl (fun o x => o.set (key x) (some (val x))) o) t = originFor o t := by
  induction l generalizing o with
  | nil => rfl
  | cons x l ih =>
    rw [forall_mem_cons] at h
    exact (ih h.2).trans (originFor_set_ne h.1 _)

/-- All writes to one entry agree, so the last one does not matter. -/
lemma originFor_writes (ht : t < o.length) (hwritten : ∃ x ∈ l, key x = t)
    (hsame : ∀ x ∈ l, key x = t → val x = place) :
    originFor (l.foldl (fun o x => o.set (key x) (some (val x))) o) t = some place := by
  induction l generalizing o with
  | nil => exact absurd hwritten (by simp)
  | cons x l ih =>
    rw [forall_mem_cons] at hsame
    rw [foldl_cons]
    by_cases hrest : ∃ y ∈ l, key y = t
    · exact ih (by rwa [length_set]) hrest hsame.2
    · -- this write is the last one
      have hx : key x = t := by
        obtain ⟨y, hy, hkey⟩ := hwritten
        rcases mem_cons.1 hy with rfl | hy
        · exact hkey
        · exact absurd ⟨y, hy, hkey⟩ hrest
      rw [originFor_writes_of_not fun y hy hkey => hrest ⟨y, hy, hkey⟩, hx, hsame.1 hx]
      exact (originFor_set ..).resolve_right (not_le.2 ht)

end Writes

lemma paramOrigins_eq (f : AmirFunc) : paramOrigins f =
    (f.blocks.flatMap fun block => f.paramsOf block.params).foldl
      (fun o p => o.set p.id (some ⟨p.localId, []⟩))
      (f.params.zipIdx.foldl (fun o p => o.set p.1 (some ⟨p.2, []⟩))
        (replicate f.temps.length none)) :=
  foldl_flatMap.symm

lemma length_paramOrigins (f : AmirFunc) : (paramOrigins f).length = f.temps.length := by
  rw [paramOrigins_eq, length_writes, length_writes, length_replicate]

lemma exists_block_of_param {p : BlockParam}
    (hp : p ∈ f.blocks.flatMap fun block => f.paramsOf block.params) :
    ∃ b, p ∈ f.blockParamsOf b := by
  obtain ⟨block, hblock, hp⟩ := mem_flatMap.1 hp
  obtain ⟨b, hb⟩ := mem_iff_getElem?.1 hblock
  refine ⟨b, ?_⟩
  rwa [AmirFunc.blockParamsOf, AmirFunc.block, getD_eq_getElem?_getD, hb]

lemma originFor_paramOrigins_none (hparam : t ∉ f.params)
    (hblock : ∀ b, ∀ p ∈ f.blockParamsOf b, p.id ≠ t) : originFor (paramOrigins f) t = none := by
  rw [paramOrigins_eq, originFor_writes_of_not, originFor_writes_of_not]
  · exact getElem?_getD_replicate_default_eq ..
  · intro p hp heq
    exact hparam (heq ▸ mem_of_getElem? (mem_zipIdx_iff_getElem?.1 hp))
  · intro p hp
    obtain ⟨b, hb⟩ := exists_block_of_param hp
    exact hblock b p hb

/-! ## The rounds -/

/-- Entries are only added, and something is added unless nothing changes. -/
structure Grows (o o' : Origins) : Prop where
  length : o'.length = o.length
  kept : ∀ t place, originFor o t = some place → originFor o' t = some place
  count : o' = o ∨ o'.count none < o.count none

lemma Grows.refl (o : Origins) : Grows o o := ⟨rfl, fun _ _ => id, .inl rfl⟩

lemma Grows.trans {o'' : Origins} (h : Grows o o') (h' : Grows o' o'') : Grows o o'' := by
  refine ⟨h'.length.trans h.length, fun t place ht => h'.kept t place (h.kept t place ht), ?_⟩
  rcases h.count with rfl | hlt
  · exact h'.count
  · rcases h'.count with rfl | hlt'
    · exact .inr hlt
    · exact .inr (hlt'.trans hlt)

lemma originStep_cases (f : AmirFunc) (o : Origins) (stmt : AmirStmt) : originStep f o stmt = o ∨
    ∃ t rhs place, stmt = .assign t rhs ∧ definitionCount f t = 1 ∧ originFor o t = none ∧
      rvalueOrigin o rhs = some place ∧ originStep f o stmt = o.set t (some place) := by
  unfold originStep
  split
  next t rhs =>
    split
    next hopen =>
      split
      next place hplace =>
        exact .inr ⟨t, rhs, place, rfl, hopen.1, Option.isNone_iff_eq_none.1 hopen.2, hplace, rfl⟩
      · exact .inl rfl
    · exact .inl rfl
  · exact .inl rfl

lemma grows_originStep (f : AmirFunc) (o : Origins) (stmt : AmirStmt) :
    Grows o (originStep f o stmt) := by
  rcases originStep_cases f o stmt with hsame | ⟨t, rhs, place, -, -, hnone, -, heq⟩
  · rw [hsame]
    exact .refl o
  rw [heq]
  refine ⟨length_set, fun t' place' ht' => ?_, ?_⟩
  · have hne : t ≠ t' := by
      rintro rfl
      rw [hnone] at ht'
      cases ht'
    exact (originFor_set_ne hne _).trans ht'
  · by_cases ht : t < o.length
    · have hentry : o[t] = none := by
        rw [originFor, getD_eq_getElem _ _ ht] at hnone
        exact hnone
      have hpos : 0 < o.count none := count_pos_iff.2 (hentry ▸ getElem_mem ht)
      refine .inr ?_
      rw [count_set ht, hentry, beq_self_eq_true, if_pos rfl, if_neg (by simp)]
      omega
    · exact .inl (set_eq_of_length_le (not_lt.1 ht))

lemma grows_foldl {α : Type} {step : Origins → α → Origins} (h : ∀ o x, Grows o (step o x))
    (l : List α) (o : Origins) : Grows o (l.foldl step o) := by
  induction l generalizing o with
  | nil => exact .refl o
  | cons x l ih => exact (h o x).trans (ih (step o x))

/-- A round that changes nothing has changed nothing at any statement. -/
lemma fixed_of_foldl {α : Type} {step : Origins → α → Origins} (h : ∀ o x, Grows o (step o x))
    {l : List α} (heq : l.foldl step o = o) : ∀ x ∈ l, step o x = o := by
  induction l with
  | nil => exact fun x hx => absurd hx not_mem_nil
  | cons x l ih =>
    -- what the first step enters would still be there at the end
    have hx : step o x = o := by
      refine (h o x).count.resolve_right fun hlt => ?_
      have hrest := (grows_foldl h l (step o x)).count
      rw [← foldl_cons, heq] at hrest
      rcases hrest with hrest | hrest
      · rw [← hrest] at hlt
        exact lt_irrefl _ hlt
      · exact lt_asymm hlt hrest
    rw [foldl_cons, hx] at heq
    exact forall_mem_cons.2 ⟨hx, ih heq⟩

lemma originRound_eq (f : AmirFunc) (o : Origins) : originRound f o =
    (f.blocks.flatMap fun block => f.blockStmts block.id).foldl (originStep f) o :=
  foldl_flatMap.symm

/-- Every entry was there at first or is the origin of the rvalue assigned to its temp. -/
def Explained (f : AmirFunc) (o : Origins) : Prop :=
  ∀ t place, originFor o t = some place → originFor (paramOrigins f) t = some place ∨
    ∃ b rhs, .assign t rhs ∈ f.blockStmts b ∧ rvalueOrigin o rhs = some place

lemma Grows.rvalueOrigin (h : Grows o o') (hrhs : rvalueOrigin o rhs = some place) :
    rvalueOrigin o' rhs = some place := by
  have htemp {op : AmirOperand} {p : AmirPlace} (hop : op.temp?.bind (originFor o) = some p) :
      op.temp?.bind (originFor o') = some p := by
    obtain ⟨t, ht, hp⟩ := Option.bind_eq_some_iff.1 hop
    exact Option.bind_eq_some_iff.2 ⟨t, ht, h.kept t p hp⟩
  unfold Mir.rvalueOrigin at hrhs ⊢
  split at hrhs
  · exact hrhs
  · obtain ⟨base, hbase, rfl⟩ := Option.map_eq_some_iff.1 hrhs
    exact Option.map_eq_some_iff.2 ⟨base, htemp hbase, rfl⟩
  · exact htemp hrhs
  · cases hrhs

lemma Explained.step (h : Explained f o) {b : BlockId} {stmt : AmirStmt}
    (hstmt : stmt ∈ f.blockStmts b) : Explained f (originStep f o stmt) := by
  have hgrows := grows_originStep f o stmt
  rcases originStep_cases f o stmt with hsame | ⟨t, rhs, place, rfl, -, -, hrhs, heq⟩
  · rwa [hsame]
  intro t' place' ht'
  by_cases hne : t = t'
  · subst hne
    rw [heq] at ht' hgrows ⊢
    -- outside of the table nothing is written
    rcases originFor_set o t place with hset | hle
    · obtain rfl := Option.some.inj (hset.symm.trans ht')
      exact .inr ⟨b, rhs, hstmt, hgrows.rvalueOrigin hrhs⟩
    · rw [originFor, getD_eq_default _ _ (by rwa [length_set])] at ht'
      cases ht'
  · rw [heq, originFor_set_ne hne] at ht'
    rcases h t' place' ht' with hparam | ⟨b', rhs', hmem, horigin⟩
    · exact .inl hparam
    · exact .inr ⟨b', rhs', hmem, hgrows.rvalueOrigin horigin⟩

lemma Explained.round (h : Explained f o) : Explained f (originRound f o) := by
  rw [originRound_eq]
  refine foldlRecOn _ _ h fun o ho stmt hstmt => ?_
  obtain ⟨block, -, hstmt⟩ := mem_flatMap.1 hstmt
  exact ho.step hstmt

/-- With more rounds than missing entries the table is final. -/
lemma tempOriginsLoop_spec {fuel : Nat} (hfuel : o.count none < fuel) (h : Explained f o) :
    Grows o (tempOriginsLoop f fuel o) ∧ Explained f (tempOriginsLoop f fuel o) ∧
      originRound f (tempOriginsLoop f fuel o) = tempOriginsLoop f fuel o := by
  induction fuel generalizing o with
  | zero => exact absurd hfuel (Nat.not_lt_zero _)
  | succ fuel ih =>
    rw [tempOriginsLoop]
    split
    next hfixed => exact ⟨.refl o, h, hfixed⟩
    next hchanged =>
      have hgrows : Grows o (originRound f o) :=
        originRound_eq f o ▸ grows_foldl (grows_originStep f) _ o
      have hlt := hgrows.count.resolve_left hchanged
      obtain ⟨hrest, hexplained, hfixed⟩ := ih (by omega) h.round
      exact ⟨hgrows.trans hrest, hexplained, hfixed⟩

lemma tempOrigins_spec (f : AmirFunc) : Grows (paramOrigins f) (tempOrigins f) ∧
    Explained f (tempOrigins f) ∧ originRound f (tempOrigins f) = tempOrigins f := by
  refine tempOriginsLoop_spec ?_ fun t place ht => .inl ht
  exact Nat.lt_succ_of_le (count_le_length.trans_eq (length_paramOrigins f))

/-! ## Nothing is missed -/

lemma mem_stmts_of_assign {b : BlockId} (h : .assign t rhs ∈ f.blockStmts b) :
    .assign t rhs ∈ f.stmts := by
  obtain ⟨k, -, hk⟩ := mem_map.1 h
  rw [AmirFunc.stmt, getD_eq_getElem?_getD] at hk
  cases hget : f.stmts[k]? with
  | none =>
    rw [hget] at hk
    cases hk
  | some stmt =>
    rw [hget] at hk
    exact hk ▸ mem_of_getElem? hget

lemma rhs_unique {rhs' : AmirRvalue} (honce : definitionCount f t = 1)
    (h : .assign t rhs ∈ f.stmts) (h' : .assign t rhs' ∈ f.stmts) : rhs = rhs' := by
  obtain ⟨stmt, hstmt⟩ := length_eq_one_iff.1 honce
  have hmem {r : AmirRvalue} (hr : .assign t r ∈ f.stmts) : AmirStmt.assign t r = stmt := by
    rw [← mem_singleton, ← hstmt]
    exact mem_filter.2 ⟨hr, by simp [AmirStmt.def?]⟩
  cases (hmem h).trans (hmem h').symm
  rfl

section Complete

variable (hids : ∀ b < f.blocks.length, (f.block b).id = b)

include hids

/-- A temp with one definition has the origin of its rvalue. -/
lemma DefinedOnce.origin (h : DefinedOnce f t rhs)
    (hrhs : rvalueOrigin (tempOrigins f) rhs = some place) :
    originFor (tempOrigins f) t = some place := by
  obtain ⟨hgrows, hexplained, hfixed⟩ := tempOrigins_spec f
  obtain ⟨b, hb⟩ := h.assigned
  have hstep : originStep f (tempOrigins f) (.assign t rhs) = tempOrigins f := by
    rw [originRound_eq] at hfixed
    refine fixed_of_foldl (grows_originStep f) hfixed _ (mem_flatMap.2 ⟨f.block b, ?_, ?_⟩)
    · rw [AmirFunc.block_eq_getElem (AmirFunc.lt_of_mem_blockStmts hb)]
      exact getElem_mem _
    · rwa [hids b (AmirFunc.lt_of_mem_blockStmts hb)]
  have hlt : t < (tempOrigins f).length := by
    rw [hgrows.length, length_paramOrigins]
    exact h.declared
  cases hget : originFor (tempOrigins f) t with
  | none =>
    -- the statement would enter it
    have hset := (originFor_set _ _ place).resolve_right (not_le.2 hlt)
    simp only [originStep, h.once, hget, hrhs, Option.isNone_none, and_self, if_true] at hstep
    rw [hstep, hget] at hset
    exact hset
  | some found =>
    rcases hexplained t found hget with hparam | ⟨b', rhs', hmem, hfound⟩
    · rw [originFor_paramOrigins_none h.notParam h.notBlockParam] at hparam
      cases hparam
    · have heq := rhs_unique h.once (mem_stmts_of_assign hb) (mem_stmts_of_assign hmem)
      rw [← heq, hrhs] at hfound
      exact hfound.symm

lemma ComesFrom.origin (h : ComesFrom f t place) : originFor (tempOrigins f) t = some place := by
  have hkept := (tempOrigins_spec f).1.kept
  induction h with
  | @param i t hdeclared hparam honly _ hblock =>
    apply hkept
    rw [paramOrigins_eq, originFor_writes_of_not, originFor_writes]
    · rwa [length_replicate]
    · exact ⟨(t, i), mem_zipIdx_iff_getElem?.2 hparam, rfl⟩
    · intro p hp hkey
      rw [honly p.2 (hkey ▸ mem_zipIdx_iff_getElem?.1 hp)]
    · intro p hp
      obtain ⟨b, hb⟩ := exists_block_of_param hp
      exact hblock b p hb
  | @blockParam b p hdeclared hparam honly _ _ =>
    apply hkept
    rw [paramOrigins_eq, originFor_writes]
    · rwa [length_writes, length_replicate]
    · refine ⟨p, mem_flatMap.2 ⟨f.block b, ?_, hparam⟩, rfl⟩
      rw [AmirFunc.block_eq_getElem (AmirFunc.lt_of_mem_blockParamsOf hparam)]
      exact getElem_mem _
    · intro p' hp' hkey
      obtain ⟨b', hb'⟩ := exists_block_of_param hp'
      rw [honly b' p' hb' hkey]
  | load h => exact h.origin hids rfl
  | use h hop _ ih => exact h.origin hids (by rw [rvalueOrigin, hop, Option.bind_some, ih])
  | payload h hvalue _ ih =>
    exact h.origin hids (by rw [rvalueOrigin, hvalue, Option.bind_some, ih]; rfl)

end Complete

/-! ## Fewer origins, fewer accesses -/

/-- Accesses are left out, but no stores. -/
inductive Thinner : List Access → List Access → Prop
  | nil : Thinner [] []
  | keep (a : Access) {as bs : List Access} (h : Thinner as bs) : Thinner (a :: as) (a :: bs)
  | drop {a : Access} (ha : ∀ place, a ≠ .store place) {as bs : List Access} (h : Thinner as bs) :
      Thinner as (a :: bs)

section Thin

variable {as bs as' bs' : List Access} {out out' : List AmirPlace} {a : Access}

lemma Thinner.refl (as : List Access) : Thinner as as := by
  induction as with
  | nil => exact .nil
  | cons a as ih => exact .keep a ih

lemma Thinner.append (h : Thinner as bs) (h' : Thinner as' bs') :
    Thinner (as ++ as') (bs ++ bs') := by
  induction h with
  | nil => exact h'
  | keep a _ ih => exact .keep a ih
  | drop ha _ ih => exact .drop ha ih

lemma Thinner.flatMap {α : Type} {g g' : α → List Access} (h : ∀ x, Thinner (g x) (g' x))
    (l : List α) : Thinner (l.flatMap g) (l.flatMap g') := by
  induction l with
  | nil => exact .nil
  | cons x l ih => exact (h x).append ih

lemma Access.Clean.mono (hsub : out ⊆ out') (h : a.Clean out') : a.Clean out := by
  cases a with
  | store place => trivial
  | _ => exact fun m hm => h m (hsub hm)

lemma Access.run_mono (hsub : out ⊆ out') : a.run out ⊆ a.run out' := by
  cases a with
  | read place => exact hsub
  | through place => exact hsub
  | move place => exact cons_subset_cons _ hsub
  | destroy place => exact cons_subset_cons _ hsub
  | store place => exact fun m hm => mem_filter.2 ⟨hsub (mem_filter.1 hm).1, (mem_filter.1 hm).2⟩

/-- Only a store restores anything. -/
lemma Access.subset_run (ha : ∀ place, a ≠ .store place) (out : List AmirPlace) :
    out ⊆ a.run out := by
  cases a with
  | read place => exact Subset.refl _
  | through place => exact Subset.refl _
  | move place => exact subset_cons_self ..
  | destroy place => exact subset_cons_self ..
  | store place => exact absurd rfl (ha place)

lemma Thinner.run (h : Thinner as bs) (hsub : out ⊆ out') :
    as.foldl Access.run out ⊆ bs.foldl Access.run out' := by
  induction h generalizing out out' with
  | nil => exact hsub
  | keep a _ ih => exact ih (Access.run_mono hsub)
  | drop ha _ ih => exact ih (Subset.trans hsub (Access.subset_run ha _))

lemma Thinner.allClean (h : Thinner as bs) (hsub : out ⊆ out') (hclean : AllClean out' bs) :
    AllClean out as := by
  induction h generalizing out out' with
  | nil => trivial
  | keep a _ ih => exact ⟨hclean.1.mono hsub, ih (Access.run_mono hsub) hclean.2⟩
  | drop ha _ ih => exact ih (Subset.trans hsub (Access.subset_run ha _)) hclean.2

end Thin

section Fewer

variable (hless : ∀ t place, originFor o t = some place → originFor o' t = some place)

include hless

lemma inspection_thinner (op : AmirOperand) : Thinner (inspection o op) (inspection o' op) := by
  unfold inspection
  cases hop : op.temp? with
  | none => exact .nil
  | some t =>
    cases hget : originFor o t with
    | none =>
      cases hget' : originFor o' t with
      | none => simpa [hget, hget'] using Thinner.nil
      | some place => simpa [hget, hget'] using Thinner.drop (a := .read place) nofun .nil
    | some place => simpa [hget, hless t place hget] using Thinner.refl [.read place]

lemma operandAccess_thinner (op : AmirOperand) :
    Thinner (operandAccess f o op) (operandAccess f o' op) := by
  unfold operandAccess
  split
  next t =>
    unfold movedPlace
    dsimp only
    split
    · exact .nil
    · cases hget : originFor o t with
      | none =>
        cases originFor o' t with
        | none => exact .nil
        | some place => exact .drop (a := .move place) nofun .nil
      | some place =>
        rw [hless t place hget]
        exact .refl _
  · exact inspection_thinner hless op

lemma stmtAccesses_thinner (stmt : AmirStmt) :
    Thinner (stmtAccesses f o stmt) (stmtAccesses f o' stmt) := by
  have hop := fun op => operandAccess_thinner (f := f) hless op
  cases stmt with
  | assign lhs rhs =>
    refine (Thinner.refl _).append (Thinner.flatMap (fun op => ?_) _)
    split
    · exact inspection_thinner hless op
    · exact hop op
  | store lhs rhs => exact ((Thinner.refl _).append (hop rhs)).append (.refl _)
  | call lhs callee args => exact Thinner.flatMap hop _
  | free op => exact hop op
  | _ => exact .refl _

lemma blockAccesses_thinner (b : BlockId) :
    Thinner (blockAccesses f o b) (blockAccesses f o' b) :=
  (Thinner.flatMap (stmtAccesses_thinner hless) _).append
    (Thinner.flatMap (inspection_thinner hless) _)

lemma edgeAccesses_thinner (b : BlockId) (args : List AmirOperand) :
    Thinner (blockAccesses f o b ++ args.flatMap (operandAccess f o))
      (blockAccesses f o' b ++ args.flatMap (operandAccess f o')) :=
  (blockAccesses_thinner hless b).append (Thinner.flatMap (operandAccess_thinner hless) _)

/-- The path moves out more by the larger table. -/
lemma MovePath.larger {b : BlockId} {out : List AmirPlace} (h : MovePath f o b out) :
    ∃ out', MovePath f o' b out' ∧ out ⊆ out' := by
  induction h with
  | entry => exact ⟨[], .entry, Subset.refl _⟩
  | @edge b t out args _ hedge ih =>
    obtain ⟨out', hpath, hsub⟩ := ih
    exact ⟨_, .edge hpath hedge, (edgeAccesses_thinner hless b args).run hsub⟩

end Fewer

end Arandu.Mir
