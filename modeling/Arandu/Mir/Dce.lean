import Arandu.Amir.Observe
import Arandu.Library.MarkQueue
import Arandu.Mir.StmtTable

/-!
# Mark-and-sweep dead code elimination

Statements with an observable effect, the definitions of the return register and of the
temps terminators read are the roots; a live statement makes every definition of the temps
it reads live. Everything else is swept out of the statement table. A local that is
never loaded, borrowed, destroyed or dereferenced is write-only, and stores to it are no
roots.
-/

namespace Arandu.Mir

open Arandu.Amir Arandu.Library List AmirFunc MarkQueue

/-! ## Roots -/

/-- The locals whose slot may be read. All other locals of the table
are write-only. -/
def observedLocals (f : AmirFunc) : List Bool :=
  f.stmts.foldl observeStmt ((replicate f.locals.length false).set 0 true)
where
  observeStmt (observed : List Bool) : AmirStmt → List Bool
    | .assign _ rhs =>
      let observed := rhs.places.foldl (fun o p => o.set p.localId true) observed
      match rhs with
      | .relativeBorrow l _ => observed.set l true
      | _ => observed
    | .store lhs _ => if lhs.hasDeref then observed.set lhs.localId true else observed
    | .destroy place => observed.set place.localId true
    | _ => observed

def isRemovableCall (removable : List SymbolId) : AmirStmt → Bool
  | .call _ (.functionRef sym) _ => removable.contains sym
  | _ => false

/-- A store or storage marker whose local is never observed.
Locals outside the table count as observed. -/
def writesUnobservedLocal (observed : List Bool) : AmirStmt → Bool
  | .store lhs _ => observed[lhs.localId]? == some false
  | .storageLive l | .storageDead l => observed[l]? == some false
  | _ => false

def isIndexProjection : AmirProjection → Bool
  | .index _ => true
  | _ => false

def hasSideEffect : AmirStmt → Bool
  | .call _ _ _ | .store _ _ | .free _ | .destroy _ | .storageLive _ | .storageDead _ => true
  -- a dynamic index may trap, whether or not its value is used
  | .assign _ (.indexAccess _ _ inBounds) => !inBounds
  -- so may an integer division
  | .assign _ (.binary .div _ _) | .assign _ (.binary .mod _ _) => true
  | .assign _ (.load p) | .assign _ (.borrow p) | .assign _ (.borrowMut p) =>
    p.projections.any isIndexProjection
  | .assign _ rhs => rhs.isEffect
  | .nop => false

def isRoot (f : AmirFunc) (removable : List SymbolId) (s : AmirStmt) : Bool :=
  hasSideEffect s && !writesUnobservedLocal (observedLocals f) s && !isRemovableCall removable s

/-- A store of the whole return slot. -/
def isReturnStore : AmirStmt → Bool
  | .store lhs _ => lhs.localId == 0 && lhs.projections.isEmpty
  | _ => false

/-! ## Temps read -/

def collectTerminatorTemps (term : AmirTerminator) : List TempId := operandTemps term.operands

def collectStmtTemps : AmirStmt → List TempId
  | .assign _ rhs => operandTemps rhs.operands
  | .store lhs rhs => operandTemps [rhs] ++ operandTemps lhs.operands
  | .call _ callee args => operandTemps (callee :: args)
  | .free op => operandTemps [op]
  | .destroy place => operandTemps place.operands
  | .storageLive _ | .storageDead _ | .nop => []

/-! ## Mark -/

section Mark

variable (f : AmirFunc)

def blockInstrs : List InstrId := (range f.blocks.length).flatMap f.blockStmtIds

def defsOf : List (List InstrId) :=
  (blockInstrs f).foldl (fun defs i =>
      match (f.stmt i).def? with
      | some lhs => defs.modify lhs (· ++ [i])
      | none => defs)
    (replicate f.temps.length [])

def defsOfTemps (temps : List TempId) : List InstrId :=
  temps.flatMap fun t => (defsOf f).getD t []

/-- The entries marked before propagation, in the order in which they are queued. -/
def markSeeds (removable : List SymbolId) : List InstrId :=
  (blockInstrs f).filter (fun i => isReturnStore (f.stmt i)) ++
  defsOfTemps f [0] ++
  (range f.blocks.length).flatMap fun b =>
    defsOfTemps f (collectTerminatorTemps (f.block b).terminator) ++
    (f.blockStmtIds b).filter fun i => isRoot f removable (f.stmt i)

/-- The mark phase: for each live statement the definitions of its operands become live. -/
def markLive (removable : List SymbolId) : MarkQueue :=
  propagate (fun i => defsOfTemps f (collectStmtTemps (f.stmt i))) f.stmts.length
    ((empty f.stmts.length).markAll (markSeeds f removable))

end Mark

/-! ## Sweep -/

/-- The only failure: a statement id that was taken before or lies outside the table. -/
inductive DceError where
  | statement (idx : InstrId)
deriving DecidableEq, Repr

/-- What each block keeps. -/
def sweepParts (f : AmirFunc) (live : InstrId → Bool) : List (List InstrId) :=
  f.blocks.map fun block => block.statements.iterIds.filter live

/-- `mark_sweep_dce_with_removable_calls`: whether something was removed, and the function
afterwards. -/
def markSweepDce (f : AmirFunc) (removable : List SymbolId) : Except DceError (Bool × AmirFunc) :=
  if f.stmts.length = 0 ∨ f.temps.length = 0 then .ok (false, f)
  else
    let live := (markLive f removable).marked
    if (markLive f removable).live.all id then .ok (false, f)
    else
      match rebuildStmts f (sweepParts f live) with
      | .ok f' => .ok (true, f')
      | .error idx => .error (.statement idx)

/-! ## Which locals are observed -/

def Unobserved (f : AmirFunc) (l : LocalId) : Prop := (observedLocals f)[l]? = some false

/-- A statement of the table reads the slot of `l`, or writes through it. -/
def AmirStmt.observes (l : LocalId) : AmirStmt → Prop
  | .assign _ rv => rv.placeLocal? = some l
  | .store p _ => p.hasDeref = true ∧ p.localId = l
  | .destroy p => p.localId = l
  | _ => False

variable (observed : List Bool)

/-- No entry of the table goes back to unobserved. -/
def Settled (observed' : List Bool) : Prop :=
  ∀ l : LocalId, observed'[l]? = some false → observed[l]? = some false

lemma settled_set (l : LocalId) : Settled observed (observed.set l true) := by
  intro k hk
  by_cases hkl : l = k
  · subst hkl
    by_cases hlt : l < observed.length <;> simp_all
  · rwa [getElem?_set_ne hkl] at hk

lemma set_true_ne (l : LocalId) : (observed.set l true)[l]? ≠ some false := by
  by_cases hlt : l < observed.length <;> simp [hlt]

lemma settled_observeStmt (s : AmirStmt) :
    Settled observed (observedLocals.observeStmt observed s) := by
  cases s with
  | assign t rv =>
    cases rv <;> first
      | exact fun l hl => hl
      | exact settled_set _ _
  | store p op =>
    simp only [observedLocals.observeStmt]
    split
    · exact settled_set _ _
    · exact fun l hl => hl
  | destroy p => exact settled_set _ _
  | _ => exact fun l hl => hl

variable {s : AmirStmt} {l : LocalId}

lemma observeStmt_observes {observed : List Bool} (h : AmirStmt.observes l s) :
    (observedLocals.observeStmt observed s)[l]? ≠ some false := by
  cases s with
  | assign t rv =>
    cases rv <;> first
      | (cases h; exact set_true_ne _ _)
      | cases h
  | store p op =>
    obtain ⟨hderef, rfl⟩ := h
    simp only [observedLocals.observeStmt, hderef]
    exact set_true_ne _ _
  | destroy p =>
    cases h
    exact set_true_ne _ _
  | _ => cases h

lemma settled_foldl (stmts : List AmirStmt) (observed : List Bool) :
    Settled observed (stmts.foldl observedLocals.observeStmt observed) :=
  foldlRecOn stmts _ (fun _ hl => hl) fun o h s _ l hl => h l (settled_observeStmt o s l hl)

variable {f : AmirFunc}

lemma not_unobserved_of_observes (hs : s ∈ f.stmts)
    (h : AmirStmt.observes l s) : ¬ Unobserved f l := by
  intro hl
  obtain ⟨pre, post, hsplit⟩ := append_of_mem hs
  unfold Unobserved observedLocals at hl
  rw [hsplit, foldl_append] at hl
  exact observeStmt_observes h (settled_foldl post _ l hl)

lemma not_unobserved_zero (f : AmirFunc) : ¬ Unobserved f 0 := by
  intro h
  exact set_true_ne _ 0 (settled_foldl f.stmts _ 0 h)

/-! ## What the mark phase marks -/

variable {i : InstrId} {t : TempId}

section Marks

variable {f : AmirFunc} {removable : List SymbolId}

lemma mem_blockInstrs : i ∈ blockInstrs f ↔ ∃ b < f.blocks.length, i ∈ f.blockStmtIds b := by
  simp [blockInstrs]

lemma getD_foldl_defs (ids : List InstrId) (defs : List (List InstrId)) (t : TempId) :
    (ids.foldl (fun defs i =>
      match (f.stmt i).def? with
      | some lhs => defs.modify lhs (· ++ [i])
      | none => defs) defs)[t]? =
    defs[t]?.map (· ++ ids.filter fun i => (f.stmt i).def? == some t) := by
  induction ids generalizing defs with
  | nil => simp
  | cons i ids ih =>
    rw [foldl_cons, ih]
    cases hdef : (f.stmt i).def? with
    | none => simp [hdef]
    | some u =>
      by_cases hut : u = t
      · subst hut
        simp [hdef, Function.comp_def]
      · simp [hdef, hut]

lemma mem_defsOf : i ∈ (defsOf f).getD t [] ↔
      t < f.temps.length ∧ i ∈ blockInstrs f ∧ (f.stmt i).def? = some t := by
  unfold defsOf
  rw [getD, getD_foldl_defs]
  by_cases ht : t < f.temps.length <;> simp [ht]

lemma mem_defsOfTemps {ts : List TempId} : i ∈ defsOfTemps f ts ↔
      ∃ t ∈ ts, t < f.temps.length ∧ i ∈ blockInstrs f ∧ (f.stmt i).def? = some t := by
  simp only [defsOfTemps, mem_flatMap, mem_defsOf]

/-- The temps whose value may still matter: the return register, what terminators read and
what live statements read. -/
inductive Needed (f : AmirFunc) (removable : List SymbolId) : TempId → Prop
  | return : Needed f removable 0
  | terminator {b : BlockId} {t : TempId} (hb : b < f.blocks.length)
      (ht : t ∈ collectTerminatorTemps (f.block b).terminator) : Needed f removable t
  | stmt {i : InstrId} {t : TempId} (hlive : (markLive f removable).marked i = true)
      (ht : t ∈ collectStmtTemps (f.stmt i)) : Needed f removable t

lemma WellFormed.blockInstrs_lt (hwf : WellFormed f) (h : i ∈ blockInstrs f) :
    i < f.stmts.length := by
  obtain ⟨b, hb, hi⟩ := mem_blockInstrs.1 h
  exact lt_of_lt_of_le (DenseRange.mem_iterIds.1 hi).2 (hwf.stmtRange b hb)

lemma marked_of_needed (hwf : WellFormed f) (hi : i ∈ blockInstrs f)
    (hdef : (f.stmt i).def? = some t) (ht : t < f.temps.length)
    (hneeded : Needed f removable t) : (markLive f removable).marked i = true := by
  have hlt := WellFormed.blockInstrs_lt hwf hi
  cases hneeded with
  | «return» =>
    refine marked_seed ?_ hlt
    have hmem : i ∈ defsOfTemps f [0] := mem_defsOfTemps.2 ⟨0, by simp, ht, hi, hdef⟩
    simp only [markSeeds, mem_append]
    exact .inl (.inr hmem)
  | @terminator b _ hb hmem =>
    refine marked_seed ?_ hlt
    simp only [markSeeds, mem_append, mem_flatMap, mem_range]
    exact .inr ⟨b, hb, .inl (mem_defsOfTemps.2 ⟨t, hmem, ht, hi, hdef⟩)⟩
  | stmt hlive hmem =>
    exact marked_dep hlive (mem_defsOfTemps.2 ⟨t, hmem, ht, hi, hdef⟩) hlt

lemma marked_of_isRoot (hwf : WellFormed f) (hi : i ∈ blockInstrs f)
    (hroot : isRoot f removable (f.stmt i) = true) : (markLive f removable).marked i = true := by
  refine marked_seed ?_ (WellFormed.blockInstrs_lt hwf hi)
  obtain ⟨b, hb, hib⟩ := mem_blockInstrs.1 hi
  simp only [markSeeds, mem_append, mem_flatMap, mem_range, mem_filter]
  exact .inr ⟨b, hb, .inr ⟨hib, hroot⟩⟩

/-- A live statement defines a temp, is a root, or stores the return slot. -/
lemma marked_cases (h : (markLive f removable).marked i = true) :
    (f.stmt i).def? ≠ none ∨ isRoot f removable (f.stmt i) = true ∨
      isReturnStore (f.stmt i) = true := by
  refine marked_induction (P := fun i => (f.stmt i).def? ≠ none ∨
    isRoot f removable (f.stmt i) = true ∨ isReturnStore (f.stmt i) = true) ?_ ?_ h
  · intro j hmem
    simp only [markSeeds, mem_append, mem_flatMap, mem_filter] at hmem
    rcases hmem with (⟨-, hret⟩ | hdef) | ⟨b, -, hdef | ⟨-, hroot⟩⟩
    · exact .inr (.inr hret)
    · obtain ⟨t, -, -, -, hdef⟩ := mem_defsOfTemps.1 hdef
      exact .inl (by simp [hdef])
    · obtain ⟨t, -, -, -, hdef⟩ := mem_defsOfTemps.1 hdef
      exact .inl (by simp [hdef])
    · exact .inr (.inl hroot)
  · intro k _ j hj
    obtain ⟨t, -, -, -, hdef⟩ := mem_defsOfTemps.1 hj
    exact .inl (by simp [hdef])

end Marks

/-! ## What the sweep keeps -/

lemma nodup_sweepParts (hwf : WellFormed f) (live : InstrId → Bool) :
    (sweepParts f live).flatten.Nodup := by
  have hsub : ((sweepParts f live).flatten).Sublist
      (f.blocks.flatMap fun b => b.statements.iterIds) := by
    rw [sweepParts]
    induction f.blocks with
    | nil => exact .slnil
    | cons b bs ih => exact (filter_sublist).append ih
  refine hsub.nodup (nodup_flatMap.2 ⟨fun b _ => b.statements.nodup_iterIds, ?_⟩)
  refine pairwise_iff_getElem.2 fun i j hi hj hij x hx hx' => ?_
  have hb : ∀ k (hk : k < f.blocks.length), f.blockStmtIds k = f.blocks[k].statements.iterIds :=
    fun k hk => by rw [blockStmtIds, block_eq_getElem hk]
  exact Nat.ne_of_lt hij (hwf.stmtOwner i j x (hb i hi ▸ hx) (hb j hj ▸ hx'))

lemma getD_sweepParts (f : AmirFunc) (live : InstrId → Bool) (b : BlockId) :
    (sweepParts f live).getD b [] = (f.blockStmtIds b).filter live := by
  rw [blockStmtIds, block, sweepParts]
  by_cases hb : b < f.blocks.length
  · simp [getElem?_eq_getElem hb]
  · simp [getElem?_eq_none (not_lt.1 hb), AmirBasicBlock.missing,
      DenseRange.iterIds, DenseRange.empty]

lemma markSweepDce_ok (hwf : WellFormed f) (removable : List SymbolId) :
    ∃ changed f', markSweepDce f removable = .ok (changed, f') ∧
      (f' = f ∨ Rebuilt f (sweepParts f (markLive f removable).marked) f') := by
  unfold markSweepDce
  split
  · exact ⟨false, f, rfl, .inl rfl⟩
  simp only
  split
  · exact ⟨false, f, rfl, .inl rfl⟩
  have hrange : ∀ ids ∈ sweepParts f (markLive f removable).marked, ∀ i ∈ ids,
      i < f.stmts.length := by
    intro ids hids i hi
    obtain ⟨block, hblock, rfl⟩ := mem_map.1 hids
    obtain ⟨k, hk, rfl⟩ := getElem_of_mem hblock
    refine WellFormed.blockInstrs_lt hwf (mem_blockInstrs.2 ⟨k, hk, ?_⟩)
    rw [blockStmtIds, block_eq_getElem hk]
    exact (mem_filter.1 hi).1
  obtain ⟨g, hg, hrebuilt⟩ :=
    rebuildStmts_ok (by simp [sweepParts]) (nodup_sweepParts hwf _) hrange
  exact ⟨true, g, by rw [hg], .inr hrebuilt⟩

/-! ## What an observer sees -/

/-- Calls to callees that are not removable, stores and storage markers of observed locals,
frees, destroys, allocations, arena operations and barriers. -/
def isVisible (f : AmirFunc) (removable : List SymbolId) (s : AmirStmt) : Bool :=
  s.isObservable && !writesUnobservedLocal (observedLocals f) s && !isRemovableCall removable s

/-- Both runs stand at the same block or ended the same way, with the same heap, the same
contents of the observed locals, the same return register, and the same visible statements
with the same operand values behind them. -/
def SameObservables (f : AmirFunc) (removable : List SymbolId) {h : Host} (c c' : Config h) :
    Prop :=
  Config.Rel (Agree (fun t => t = 0) (fun l => ¬ Unobserved f l) (isVisible f removable)) c c'

/-- Locals that live in shared memory are those some statement takes the address of. -/
def FrameOf (f : AmirFunc) (frame : LocalId → Bool) : Prop :=
  ∀ l, frame l = true → ∃ t rv, .assign t rv ∈ f.stmts ∧
    (rv = .relativeBorrow l false ∨ rv = .relativeBorrow l true ∨
      ∃ p : AmirPlace, p.localId = l ∧ (rv = .borrow p ∨ rv = .borrowMut p))

/-- Calls that write nothing and cannot trap. -/
def EffectFree (h : Host) (removable : List SymbolId) : Prop :=
  ∀ sym ∈ removable, ∀ args heap,
    match h.call (.obj (h.symbol sym)) args heap with
    | .ok (_, heap') => heap' = heap
    | .error e => e = .stuck

def TrapsAreRoots (E : Env) (f : AmirFunc) (removable : List SymbolId) (st₀ : State E.host) :
    Prop :=
  ∀ b k s st, ReachesStmt E f st₀ b k st → (f.blockStmts b)[k]? = some s →
    execStmt E f st s = .error .trap → isRoot f removable s = true

/-! ## Removed statements -/

section Removed

variable {E : Env} {f : AmirFunc} {removable : List SymbolId} {vals : List E.host.Val}
  {rv : AmirRvalue}

lemma frame_of_unobserved (hframe : FrameOf f E.frame) (hl : Unobserved f l) :
    E.frame l = false := by
  cases hfr : E.frame l with
  | false => rfl
  | true =>
    obtain ⟨t, rv, hmem, hrv⟩ := hframe l hfr
    refine absurd hl (not_unobserved_of_observes hmem ?_)
    rcases hrv with rfl | rfl | ⟨p, rfl, rfl | rfl⟩ <;> rfl

lemma hasSideEffect_of_isEffect (h : rv.isEffect = true) : hasSideEffect (.assign t rv) = true := by
  cases rv <;> first
    | rfl
    | cases h

lemma isVisible_eq_false (h : isRoot f removable s = false) : isVisible f removable s = false := by
  unfold isRoot at h
  unfold isVisible
  have heff : s.isObservable = true → hasSideEffect s = true := by
    cases s with
    | assign t rv => exact hasSideEffect_of_isEffect
    | nop => exact fun h => h
    | _ => exact fun _ => rfl
  cases hobs : s.isObservable with
  | false => rfl
  | true => simpa [heff hobs] using h

lemma applyStmt_assign_memory {st st₁ : State E.host}
    (hpure : rv.isEffect = false) (happ : applyStmt E f st (.assign t rv) vals = .ok st₁) :
    st₁.heap = st.heap ∧ st₁.slots = st.slots := by
  obtain ⟨tmp, v, heap, w, -, hrv, -, rfl⟩ := applyStmt_assign_ok.1 happ
  simp only [evalRvalue, hpure] at hrv
  obtain ⟨v', -, heq⟩ := Res.bind_eq_ok.1 hrv
  cases heq
  exact ⟨rfl, rfl⟩

lemma applyStmt_call_memory (heffect : EffectFree E.host removable) {sym : SymbolId}
    (hsym : sym ∈ removable) {lhs : Option TempId} {args : List AmirOperand} {st st₁ : State E.host}
    (hvals : evalOperands E st (.functionRef sym :: args) = .ok vals)
    (happ : applyStmt E f st (.call lhs (.functionRef sym) args) vals = .ok st₁) :
    st₁.heap = st.heap ∧ st₁.slots = st.slots := by
  obtain ⟨v, vs, hv, -, rfl⟩ := evalOperands_cons_ok.1 hvals
  cases hv
  obtain ⟨_, _, r, heap, heq, hcall, hst⟩ := applyStmt_call_ok happ
  cases heq
  have hheap := heffect sym hsym vs st.heap
  rw [hcall] at hheap
  rcases hst with ⟨-, rfl⟩ | ⟨u, tmp, w, -, -, -, rfl⟩
  · exact ⟨hheap, rfl⟩
  · exact ⟨hheap, rfl⟩

attribute [local simp] isRemovableCall

lemma applyStmt_removed (hframe : FrameOf f E.frame) (heffect : EffectFree E.host removable)
    (hmem : s ∈ f.stmts) (hroot : isRoot f removable s = false) {st st₁ : State E.host}
    (hvals : evalOperands E st s.operands = .ok vals) (happ : applyStmt E f st s vals = .ok st₁) :
    st₁.heap = st.heap ∧ ∀ l, ¬ Unobserved f l → st₁.slots l = st.slots l := by
  have hslot : ∀ {l k : LocalId} {x : E.host.Slot}, Unobserved f l → ¬ Unobserved f k →
      (st.setSlot l x).slots k = st.slots k := by
    intro l k x hl hk
    have hne : k ≠ l := fun h => hk (h ▸ hl)
    simp [State.setSlot, hne]
  cases s with
  | assign t rv =>
    have hpure : rv.isEffect = false := by
      by_contra heff
      have := hasSideEffect_of_isEffect (t := t) (by simpa using heff)
      simp [isRoot, this, writesUnobservedLocal] at hroot
    obtain ⟨hheap, hslots⟩ := applyStmt_assign_memory hpure happ
    exact ⟨hheap, fun l _ => congrFun hslots l⟩
  | store p op =>
    have hl : Unobserved f p.localId := by
      simpa [isRoot, hasSideEffect, writesUnobservedLocal, Unobserved] using hroot
    have hderef : p.hasDeref = false := by
      by_contra hd
      exact not_unobserved_of_observes hmem ⟨by simpa using hd, rfl⟩ hl
    simp only [applyStmt, frame_of_unobserved hframe hl, hderef] at happ
    split at happ
    · cases happ
    · obtain ⟨x, -, hx⟩ := Res.bind_eq_ok.1 happ
      cases hx
      exact ⟨rfl, fun k hk => hslot hl hk⟩
  | call lhs c args =>
    obtain ⟨sym, rfl, hsym⟩ : ∃ sym, c = .functionRef sym ∧ sym ∈ removable := by
      cases c <;> simp [isRoot, hasSideEffect, writesUnobservedLocal] at hroot
      exact ⟨_, rfl, hroot⟩
    obtain ⟨hheap, hslots⟩ := applyStmt_call_memory heffect hsym hvals happ
    exact ⟨hheap, fun l _ => congrFun hslots l⟩
  | free op | destroy p =>
    simp [isRoot, hasSideEffect, writesUnobservedLocal] at hroot
  | storageLive l | storageDead l =>
    have hl : Unobserved f l := by
      simpa [isRoot, hasSideEffect, writesUnobservedLocal, Unobserved] using hroot
    simp only [applyStmt, applyStmt.storage, frame_of_unobserved hframe hl] at happ
    cases happ
    exact ⟨rfl, fun k hk => hslot hl hk⟩
  | nop =>
    cases happ
    exact ⟨rfl, fun _ _ => rfl⟩

end Removed

/-! ## The simulation -/

section Simulation

variable {E : Env} {f : AmirFunc} {removable : List SymbolId}

/-- Agreement on everything the swept function still computes. -/
abbrev Sim (f : AmirFunc) (removable : List SymbolId) {h : Host} : State h → State h → Prop :=
  Agree (Needed f removable) (fun l => ¬ Unobserved f l) (isVisible f removable)

lemma mem_collectStmtTemps (h : t ∈ operandTemps s.operands) : t ∈ collectStmtTemps s := by
  cases s with
  | store p op =>
    simp only [AmirStmt.operands, operandTemps, filterMap_append, mem_append] at h
    simp only [collectStmtTemps, mem_append]
    exact h.symm
  | _ => exact h

lemma observed_of_marked (hi : i < f.stmts.length) (hlive : (markLive f removable).marked i = true)
    (hl : (f.stmt i).localId? = some l) : ¬ Unobserved f l := by
  have hmem : f.stmt i ∈ f.stmts := by
    rw [stmt_eq_getElem hi]
    exact getElem_mem hi
  have hcases := marked_cases hlive
  cases hs : f.stmt i with
  | assign t rv =>
    rw [hs] at hl hmem
    exact not_unobserved_of_observes hmem hl
  | destroy p =>
    rw [hs] at hl hmem
    cases hl
    exact not_unobserved_of_observes hmem rfl
  | store p op =>
    rw [hs] at hl hcases
    cases hl
    rcases hcases with hdef | hroot | hret
    · exact absurd rfl hdef
    · intro hun
      simp [isRoot, writesUnobservedLocal,
        show (observedLocals f)[p.localId]? = some false from hun] at hroot
    · simp only [isReturnStore, Bool.and_eq_true, beq_iff_eq] at hret
      rw [hret.1]
      exact not_unobserved_zero f
  | storageLive k | storageDead k =>
    rw [hs] at hl hcases
    cases hl
    rcases hcases with hdef | hroot | hret
    · exact absurd rfl hdef
    · intro hun
      simp [isRoot, writesUnobservedLocal,
        show (observedLocals f)[l]? = some false from hun] at hroot
    · cases hret
  | call lhs c args | free op | nop =>
    rw [hs] at hl
    cases hl

lemma Sim.kept {st st' : State E.host} (h : Sim f removable st st')
    (hi : i < f.stmts.length) (hlive : (markLive f removable).marked i = true) :
    Res.Rel (Sim f removable) (execStmt E f st (f.stmt i)) (execStmt E f st' (f.stmt i)) :=
  h.execStmt (fun _ ht => .stmt hlive (mem_collectStmtTemps ht))
    fun _ hl => observed_of_marked hi hlive hl

/-- A removed statement that completes in the original run changes nothing that is left. -/
lemma Sim.removed (hwf : WellFormed f) (hframe : FrameOf f E.frame)
    (heffect : EffectFree E.host removable) {st st' st₁ : State E.host}
    (h : Sim f removable st st') (hi : i ∈ blockInstrs f)
    (hdead : (markLive f removable).marked i = false)
    (hexec : execStmt E f st (f.stmt i) = .ok st₁) : Sim f removable st₁ st' := by
  have hlt := WellFormed.blockInstrs_lt hwf hi
  have hmem : f.stmt i ∈ f.stmts := by
    rw [stmt_eq_getElem hlt]
    exact getElem_mem hlt
  have hroot : isRoot f removable (f.stmt i) = false := by
    by_contra hr
    have := marked_of_isRoot hwf hi (by simpa using hr)
    simp [hdead] at this
  obtain ⟨vals, st₂, hvals, happ, rfl⟩ := execStmt_ok.1 hexec
  obtain ⟨hheap, hslots⟩ := applyStmt_removed hframe heffect hmem hroot hvals happ
  refine ⟨fun t ht => ?_, ?_, fun l hl => ?_, ?_⟩
  · rw [h.temps t ht]
    refine (applyStmt_temps happ fun hdef => ?_).symm
    -- a definition of a needed temp of the table would be live
    have := marked_of_needed hwf hi hdef (execStmt_defines hexec hdef).1 ht
    simp [hdead] at this
  · rw [h.heap]
    exact hheap.symm
  · rw [h.slots l hl]
    exact (hslots l hl).symm
  · simp [h.events, applyStmt_trace happ, isVisible_eq_false hroot]

variable {st₀ : State E.host}

section

variable (hwf : WellFormed f) (hframe : FrameOf f E.frame) (heffect : EffectFree E.host removable)
  (htraps : TrapsAreRoots E f removable st₀)
include hwf hframe heffect htraps

/-- The statements of a block, from any point on. The original may also stop at a removed
statement that has no meaning; a removed statement never traps. -/
lemma Sim.runStmts {b : BlockId} (hb : b < f.blocks.length) {stb : State E.host}
    (hreach : ReachesBlock E f st₀ b stb) {pre ids : List InstrId}
    (hsplit : f.blockStmtIds b = pre ++ ids) {st st' : State E.host}
    (hpre : runStmts E f (pre.map f.stmt) stb = .ok st) (h : Sim f removable st st') :
    (∃ stk, runStmts E f (ids.map f.stmt) st = .error (.stuck, stk)) ∨
      RunRel (Sim f removable) (runStmts E f (ids.map f.stmt) st)
        (runStmts E f ((ids.filter (markLive f removable).marked).map f.stmt) st') := by
  induction ids generalizing pre st st' with
  | nil => exact .inr (.ok h)
  | cons i ids ih =>
    have hi : i ∈ blockInstrs f := mem_blockInstrs.2 ⟨b, hb, by rw [hsplit]; simp⟩
    have hnext : ∀ {st₁ st₁' : State E.host}, execStmt E f st (f.stmt i) = .ok st₁ →
        Sim f removable st₁ st₁' →
        (∃ stk, Amir.runStmts E f (ids.map f.stmt) st₁ = .error (.stuck, stk)) ∨
          RunRel (Sim f removable) (Amir.runStmts E f (ids.map f.stmt) st₁) (Amir.runStmts E f
              ((ids.filter (markLive f removable).marked).map f.stmt) st₁') := by
      intro st₁ st₁' hexec hsim
      have hsplit' : f.blockStmtIds b = (pre ++ [i]) ++ ids := by simp [hsplit]
      refine ih hsplit' ?_ hsim
      rw [map_append, runStmts_append_ok]
      exact ⟨st, hpre, runStmts_cons_ok.2 ⟨st₁, hexec, rfl⟩⟩
    cases hlive : (markLive f removable).marked i with
    | true =>
      simp only [map_cons, filter_cons, hlive, if_true, Amir.runStmts]
      have hstep := h.kept (WellFormed.blockInstrs_lt hwf hi) hlive
      generalize hexec : execStmt E f st (f.stmt i) = x at hstep hnext
      generalize execStmt E f st' (f.stmt i) = x' at hstep
      cases hstep with
      | error e => exact .inr (.error e h)
      | ok hsim => exact hnext rfl hsim
    | false =>
      simp only [map_cons, filter_cons, hlive, Amir.runStmts]
      cases hexec : execStmt E f st (f.stmt i) with
      | ok st₁ => exact hnext hexec (h.removed hwf hframe heffect hi hlive hexec)
      | error e =>
        cases e with
        | stuck => exact .inl ⟨st, rfl⟩
        | trap =>
          -- a statement that traps is a root, and roots are live
          have hat : (f.blockStmts b)[pre.length]? = some (f.stmt i) := by
            simp [blockStmts, hsplit]
          have htake : (f.blockStmts b).take pre.length = pre.map f.stmt := by
            simp [blockStmts, hsplit]
          have hroot := htraps b pre.length (f.stmt i) st
            ⟨stb, hreach, by rw [htake]; exact hpre⟩ hat hexec
          have := marked_of_isRoot hwf hi hroot
          simp [hlive] at this

lemma Sim.runN {f' : AmirFunc}
    (hf' : Rebuilt f (sweepParts f (markLive f removable).marked) f') (n : Nat) :
    (True ∧ (runN E f n (.running 0 st₀)).isStuck) ∨
      Config.Rel (Sim f removable) (runN E f n (.running 0 st₀))
        (runN E f' n (.running 0 st₀)) := by
  refine runN_rel (.refl st₀) (fun b st st' hreach h => ?_) n
  by_cases hb : b < f.blocks.length
  · refine step_rel ?_ ?_
    · rw [runStmts_congr hf'.temps, hf'.blockStmts, getD_sweepParts]
      have hall : f.blockStmtIds b = [] ++ f.blockStmtIds b := rfl
      exact (Sim.runStmts hwf hframe heffect htraps hb hreach hall rfl h).imp_left (⟨trivial, ·⟩)
    · intro st₁ st₁' _ hsim
      rw [execTerminator_congr hf'.temps hf'.blockParamsOf, hf'.terminator]
      exact .inr (hsim.execTerminator (fun t ht => .terminator hb ht) fun _ => .return)
  · -- a block outside the table has no statements and cannot be left
    refine .inr ?_
    simp only [step, hf'.blockStmts, getD_sweepParts, hf'.terminator]
    simp only [blockStmts, blockStmtIds, block_of_length_le (not_lt.1 hb)]
    exact .halted _ h

end

end Simulation

/-! ## The pass -/

/-- Dead code elimination preserves every observable of a run in which only roots trap: it
succeeds, and after every number of blocks the swept function has made the same calls to
callees that are not removable, the same stores to observed memory, the same frees and
destroys, and ends in the same trap or with the same return register, unless the original
run has lost its meaning. -/
theorem markSweepDce_preserves {E : Env} {f : AmirFunc}
    (hvalid : validateAmirFunc f E.interner = []) (hframe : FrameOf f E.frame)
    {removable : List SymbolId} (heffect : EffectFree E.host removable) {st₀ : State E.host}
    (htraps : TrapsAreRoots E f removable st₀) :
    ∃ changed f', markSweepDce f removable = .ok (changed, f') ∧
      ∀ n, (runN E f n (.running 0 st₀)).isStuck ∨
        SameObservables f removable (runN E f n (.running 0 st₀))
          (runN E f' n (.running 0 st₀)) := by
  have hwf := wellFormed_of_validate hvalid
  obtain ⟨changed, f', hok, hf'⟩ := markSweepDce_ok hwf removable
  refine ⟨changed, f', hok, fun n => ?_⟩
  rcases hf' with rfl | hf'
  · exact .inr (.of_refl .refl _)
  · rcases Sim.runN hwf hframe heffect htraps hf' n with ⟨-, hstuck⟩ | hrel
    · exact .inl hstuck
    · refine .inr (hrel.mono fun st st' h => ⟨fun t ht => ?_, h.heap, h.slots, h.events⟩)
      exact h.temps t (ht ▸ .return)

/-! ## A store whose bounds check is lost -/

/-- Private arrays have four elements. -/
def arrayHost : Host :=
  { Host.lengths with
    Slot := Unit
    place := fun _ _ _ _ _ => .error .stuck
    storeSlot := fun _ vals slot _ =>
      match vals with
      | [.int i] => if 0 ≤ i ∧ i < 4 then .ok slot else .error .trap
      | _ => .error .stuck
    storeHeap := fun _ _ _ _ _ => .error .stuck
    destroy := fun _ _ heap slot => .ok (heap, slot)
    storageSlot := fun _ _ => () }

def arrayEnv : Env where
  interner := ⟨[.primitive .int, .array 4 0]⟩
  pool := ⟨[]⟩
  host := arrayHost
  frame := fun _ => false

/-- `let mut a: [int; 4]; a[i] = i; return`, where `_1` is `i` and nothing reads `a`. -/
def storeOnly : AmirFunc :=
  let blocks : List AmirBasicBlock := [⟨0, .empty, ⟨0, 1⟩, .return⟩]
  { symbol := 0, returnType := 0, receiver := none, params := [1]
    locals := [⟨0, 0, false, none⟩, ⟨1, 1, true, none⟩]
    temps := [⟨0, 0, true, false⟩, ⟨1, 0, true, false⟩], blocks := blocks, blockParams := []
    stmts := [.store ⟨1, [.index (.copy 1)]⟩ (.copy 1)], cfg := computeCfgEdges blocks }

def storeCall (i : Int) : State arrayHost :=
  .ofInputs (h := arrayHost) (0 : Int) () [(1, .int i)]

/-- With `i = 9` the original traps; the swept function returns. -/
theorem markSweepDce_drops_index_trap :
    validateAmirFunc storeOnly arrayEnv.interner = [] ∧ FrameOf storeOnly arrayEnv.frame ∧
      EffectFree arrayHost [] ∧ ∃ f' st st', markSweepDce storeOnly [] = .ok (true, f') ∧
        runN arrayEnv storeOnly 1 (.running 0 (storeCall 9)) = .halted (.stopped .trap) st ∧
        runN arrayEnv f' 1 (.running 0 (storeCall 9)) = .halted (.returned none) st' :=
  ⟨by decide, nofun, nofun, _, _, _, rfl, rfl, rfl⟩

/-- With `i = 2` nothing traps, the store is swept, and both functions return. -/
theorem markSweepDce_preserves_storeOnly :
    ∃ f', markSweepDce storeOnly [] = .ok (true, f') ∧ f'.stmts = [] ∧
      SameObservables storeOnly [] (runN arrayEnv storeOnly 1 (.running 0 (storeCall 2)))
        (runN arrayEnv f' 1 (.running 0 (storeCall 2))) := by
  have hvalid : validateAmirFunc storeOnly arrayEnv.interner = [] := by decide
  have hframe : FrameOf storeOnly arrayEnv.frame := nofun
  have heffect : EffectFree arrayEnv.host [] := nofun
  -- the run never leaves the entry block, and its one statement completes
  have hblock : ∀ b st, ReachesBlock arrayEnv storeOnly (storeCall 2) b st →
      b = 0 ∧ st = storeCall 2 := by
    intro b st h
    refine ReachesBlock.induction (P := fun b st => b = 0 ∧ st = storeCall 2) ⟨rfl, rfl⟩ ?_ h
    rintro b st b' st' - ⟨rfl, rfl⟩ hstep
    cases hstep
  have htraps : TrapsAreRoots arrayEnv storeOnly [] (storeCall 2) := by
    rintro b k s st ⟨stb, hreach, hrun⟩ hs htrap
    obtain ⟨rfl, rfl⟩ := hblock b stb hreach
    rcases k with _ | k
    · cases hs
      cases hrun
      cases htrap
    · cases hs
  obtain ⟨changed, f', hok, hsame⟩ :=
    markSweepDce_preserves (E := arrayEnv) hvalid hframe heffect htraps
  cases hok
  refine ⟨_, rfl, rfl, ?_⟩
  rcases hsame 1 with hstuck | hsame
  · cases hstuck
  · exact hsame

end Arandu.Mir
