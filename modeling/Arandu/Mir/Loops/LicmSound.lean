import Arandu.Amir.Observe
import Arandu.Amir.SsaCheck
import Arandu.Mir.Loops.Licm

/-!
# Loop-invariant code motion preserves meaning

The run before a move and the run after it stand at the same block after every step. Their
states agree on every temp except those of moved statements that the first run has not defined
yet; while control is inside the loop, the second run holds in each of them the value its
statement computes (`SimAt`).

A statement can be moved although computing it in the preheader fails: a `Use` that converts a
floating point number to an integer passes for a copy. `HoistCompletes` asks that the values can
be computed, `ReturnsDefined` that the return register is not read before a definition;
`licm_preserves` is the result for runs that meet both.
-/

namespace Arandu.Mir

open Arandu.Amir Arandu.Library List Option AmirStmt AmirFunc Dominators Res

/-! ## The preheader dominates the loop -/

variable {b : BlockId}

section Preheader

variable {f : AmirFunc} {lp : LoopInfo}

lemma NaturalLoop.preheader_dominates_header (h : NaturalLoop f lp) :
    Dominates f.Edge 0 lp.preheader lp.header := by
  -- a walk that comes back to the header from the body visited the header before
  have key : ∀ n p, Walk f.Edge 0 lp.header p → p.length ≤ n → lp.preheader ∈ p := by
    intro n
    induction n with
    | zero =>
      intro p hp hlen
      obtain ⟨q, rfl⟩ := hp.head
      simp at hlen
    | succ n ih =>
      intro p hp hlen
      generalize hd : lp.header = d at hp
      cases hp with
      | start => exact absurd hd h.notEntry
      | @step m _ q hq hedge =>
        subst hd
        rcases h.enters m hedge with hm | rfl
        · obtain ⟨r, hr, hsuffix⟩ := hq.suffix (h.dominated m hm q hq)
          have hlength := hsuffix.length_le
          rw [length_cons] at hlen
          exact mem_cons_of_mem _ (hsuffix.subset (ih r hr (by omega)))
        · exact mem_cons_of_mem _ hq.mem_end
  exact fun p hp => key p.length p hp le_rfl

lemma NaturalLoop.preheader_dominates (h : NaturalLoop f lp) (hb : b ∈ lp.body) :
    Dominates f.Edge 0 lp.preheader b :=
  h.preheader_dominates_header.trans (h.dominated b hb)

lemma NaturalLoop.not_dominates_preheader (h : NaturalLoop f lp)
    (hb : b ∈ lp.body) (hreach : Reachable f.Edge 0 lp.preheader) :
    ¬ Dominates f.Edge 0 b lp.preheader := by
  intro hdom
  have heq : lp.preheader = b := Dominates.antisymm hreach (h.preheader_dominates hb) hdom
  exact h.outside (heq ▸ hb)

end Preheader

/-! ## The value of a statement that may be moved -/

variable {rv : AmirRvalue} {E : Env}

section Value

variable (E : Env) (f : AmirFunc)

/-- What `t := rv` writes, for an `rv` that reads temps only. -/
def rvalueInto (st : State E.host) (t : TempId) (rv : AmirRvalue) : Res E.host.Val := do
  let vals ← evalOperands E st rv.operands
  match f.temps[t]? with
  | none => .error .stuck
  | some tmp => do
    let v ← readRvalue E f st tmp.ty rv vals
    assignValue E f tmp rv v

variable {E f}

lemma isEffect_of_speculatable (h : isSpeculatable rv = true) : rv.isEffect = false := by
  cases rv <;> first | rfl | cases h

lemma readRvalue_speculated (h : isSpeculatable rv = true)
    (st st' : State E.host) (ty : TypeId) (vals : List E.host.Val)
    (hlen : vals.length = rv.operands.length) :
    readRvalue E f st' ty rv vals = readRvalue E f st ty rv vals := by
  cases rv with
  | use op =>
    obtain ⟨v, rfl⟩ := length_eq_one_iff.1 hlen
    rfl
  | binary op x y =>
    obtain ⟨a, b, rfl⟩ := length_eq_two.1 hlen
    rfl
  | unary op x =>
    obtain ⟨v, rfl⟩ := length_eq_one_iff.1 hlen
    cases op <;> first | rfl | cases h
  | _ => cases h

lemma length_evalOperands {st : State E.host} {ops : List AmirOperand} {vals : List E.host.Val}
    (h : evalOperands E st ops = .ok vals) : vals.length = ops.length := by
  induction ops generalizing vals with
  | nil =>
    cases h
    rfl
  | cons op ops ih =>
    obtain ⟨v, vs, -, hvs, rfl⟩ := evalOperands_cons_ok.1 h
    rw [length_cons, ih hvs, length_cons]

lemma rvalueInto_congr (hspec : isSpeculatable rv = true)
    {st st' : State E.host} (h : ∀ o ∈ operandTemps rv.operands, st'.temps o = st.temps o)
    (t : TempId) : rvalueInto E f st' t rv = rvalueInto E f st t rv := by
  have hops := evalOperands_congr fun op hop o ho => h o (mem_operandTemps.2 ⟨op, hop, ho⟩)
  unfold rvalueInto
  rw [hops]
  cases hvals : evalOperands E st rv.operands with
  | error e => rfl
  | ok vals =>
    simp only [bind, Except.bind]
    cases f.temps[t]? with
    | none => rfl
    | some tmp =>
      simp only [readRvalue_speculated hspec st st' tmp.ty vals (length_evalOperands hvals)]

/-- The state after writing `w` to `t` without an event. -/
structure Wrote (t : TempId) (w : E.host.Val) (st st' : State E.host) : Prop where
  agree : Agree (fun u => u ≠ t) (fun _ => True) isObservable st st'
  value : st'.temps t = some w

lemma execStmt_speculated (hspec : isSpeculatable rv = true) (st : State E.host) (t : TempId) :
    Rel (fun w st' => Wrote t w st st') (rvalueInto E f st t rv)
      (execStmt E f st (.assign t rv)) := by
  show Rel _ (evalOperands E st rv.operands >>= _) (evalOperands E st rv.operands >>= _)
  refine (Rel.same _).bind ?_
  intro vals _ heq
  subst heq
  simp only [applyStmt, evalRvalue, isEffect_of_speculatable hspec, Bool.false_eq_true, if_false,
    bind, Except.bind]
  cases f.temps[t]? with
  | none => exact .error _
  | some tmp =>
    dsimp only
    generalize readRvalue E f st tmp.ty rv vals = read
    cases read with
    | error e => exact .error e
    | ok v =>
      dsimp only
      generalize assignValue E f tmp rv v = written
      cases written with
      | error e => exact .error e
      | ok w =>
        refine .ok ⟨⟨fun u hu => ?_, rfl, fun _ _ => rfl, ?_⟩, State.setTemp_self ..⟩
        · exact State.setTemp_of_ne _ _ hu
        · exact events_concat_assign st.trace t (isEffect_of_speculatable hspec) vals

end Value

/-! ## What both runs share -/

def SameObservation {h : Host} (st st' : State h) : Prop :=
  Agree (fun _ => False) (fun _ => True) isObservable st st'

lemma Agree.sameObservation {needed : TempId → Prop} {st st' : State E.host}
    (hagree : Agree needed (fun _ => True) isObservable st st') : SameObservation st st' :=
  hagree.mono fun _ hf => hf.elim

/-- At position `k` of block `b` the first run has defined `t`, if a definition of it moves. -/
def Present (f : AmirFunc) (lp : LoopInfo) (ids : List InstrId) (b : BlockId) (k : Nat)
    (t : TempId) : Prop :=
  ∀ id ∈ ids, ∀ d j rv, Movable f lp id d j t rv → f.After d (j + 1) b k

/-- The temps of the moved statements hold what the statements compute. -/
def AllComputed (E : Env) (f : AmirFunc) (lp : LoopInfo) (ids : List InstrId)
    (st : State E.host) : Prop :=
  ∀ id ∈ ids, ∀ d j t rv, Movable f lp id d j t rv →
    ∃ w, rvalueInto E f st t rv = .ok w ∧ st.temps t = some w

structure SimAt (E : Env) (f : AmirFunc) (lp : LoopInfo) (ids : List InstrId) (b : BlockId)
    (k : Nat) (st st' : State E.host) : Prop where
  agree : Agree (Present f lp ids b k) (fun _ => True) isObservable st st'
  computed : b ∈ lp.body → AllComputed E f lp ids st'

/-- Statement lists that complete in states related by `R`, or fail alike in states related
by `S`. -/
inductive RunsAlike {h : Host} (R S : State h → State h → Prop) :
    Except (Stop × State h) (State h) → Except (Stop × State h) (State h) → Prop
  | ok {st st' : State h} (h : R st st') : RunsAlike R S (.ok st) (.ok st')
  | error (e : Stop) {st st' : State h} (h : S st st') :
      RunsAlike R S (.error (e, st)) (.error (e, st'))

inductive SimConfig (E : Env) (f : AmirFunc) (lp : LoopInfo) (ids : List InstrId) :
    Config E.host → Config E.host → Prop
  | running (b : BlockId) {st st' : State E.host} (hreach : Reachable f.Edge 0 b)
      (h : SimAt E f lp ids b 0 st st') : SimConfig E f lp ids (.running b st) (.running b st')
  | halted (o : Outcome E.host) {st st' : State E.host} (h : SameObservation st st') :
      SimConfig E f lp ids (.halted o st) (.halted o st')

/-- What the pass takes for granted: at the end of the preheader each moved statement has a
value. -/
def HoistCompletes (E : Env) (f : AmirFunc) (lp : LoopInfo) (ids : List InstrId)
    (st₀ : State E.host) : Prop :=
  ∀ st st₁, ReachesBlock E f st₀ lp.preheader st →
    runStmts E f (f.blockStmts lp.preheader) st = .ok st₁ →
    ∀ id ∈ ids, ∀ t rv, f.stmt id = .assign t rv → ∃ w, rvalueInto E f st₁ t rv = .ok w

/-- Where control returns, the return register is defined if any statement defines it. -/
def ReturnsDefined (f : AmirFunc) : Prop :=
  ∀ b, Reachable f.Edge 0 b → (f.block b).terminator = .return →
    ∀ d, ∀ s ∈ f.blockStmts d, s.def? = some 0 → f.DefinedBefore 0 b (f.blockStmts b).length

/-! ## One statement -/

variable {t : TempId} {id : InstrId} {d : BlockId}

section Statement

variable {E : Env} {f : AmirFunc} {lp : LoopInfo} {ids : List InstrId} {b d' : BlockId} {k : Nat}
  {st st' : State E.host} {rv' : AmirRvalue} {id' : InstrId}

lemma Movable.blockStmt
    (h : Movable f lp id b k t rv) : (f.blockStmts b)[k]? = some (.assign t rv) := by
  rw [blockStmts, getElem?_map, h.position, map_some, h.stmt]

lemma Movable.unique_of_temp {j j' : Nat}
    (h : Movable f lp id d j t rv) (h' : Movable f lp id' d' j' t rv') : id = id' ∧ rv = rv' := by
  obtain ⟨rfl, rfl⟩ := h'.unique.stmt d j _ h.blockStmt rfl
  have hid : id = id' := some.inj (h.position.symm.trans h'.position)
  subst hid
  have hstmt := h.stmt.symm.trans h'.stmt
  exact ⟨rfl, (assign.inj hstmt).2⟩

lemma Movable.operand_not_moved {j j' : Nat} {o : TempId}
    (h : Movable f lp id d j t rv) (ho : o ∈ operandTemps rv.operands) :
    ¬ Movable f lp id' d' j' o rv' :=
  fun h' => (h.operands o ho).stmts d' h'.inside _ (mem_of_getElem? h'.blockStmt) rfl

lemma present_of_definedBefore (h : f.DefinedBefore t b k) : Present f lp ids b k t := by
  intro id _ d j rv hmove
  rcases h with hinput | ⟨d', hparam, -⟩ | ⟨d', j', s, hs, hdef, hafter⟩
  · rcases hinput with hinput | hinput
    · exact absurd hinput hmove.unique.input.1
    · exact absurd hinput hmove.unique.input.2
  · exact absurd hparam (hmove.unique.param d')
  · obtain ⟨rfl, rfl⟩ := hmove.unique.stmt d' j' s hs hdef
    exact hafter

lemma present_of_used (hstrict : f.Strict) (hreach : Reachable f.Edge 0 b)
    (h : f.UsedAt t b k) : Present f lp ids b k t :=
  present_of_definedBefore (hstrict t b k hreach h)

lemma Present.pred (h : Present f lp ids b (k + 1) t)
    (hnot : ∀ id ∈ ids, ∀ rv, ¬ Movable f lp id b k t rv) : Present f lp ids b k t := by
  intro id hid d j rv hmove
  rcases h id hid d j rv hmove with ⟨rfl, hle⟩ | hdom
  · refine .inl ⟨rfl, lt_of_le_of_ne (Nat.le_of_succ_le_succ hle) ?_⟩
    intro heq
    subst heq
    exact hnot id hid rv hmove
  · exact .inr hdom

lemma AllComputed.congr {st₁ : State E.host} (h : AllComputed E f lp ids st)
    (hresult : ∀ id ∈ ids, ∀ d j t rv, Movable f lp id d j t rv → st₁.temps t = st.temps t)
    (hoperand : ∀ o, LoopInvariant f lp o → st₁.temps o = st.temps o) :
    AllComputed E f lp ids st₁ := by
  intro id hid d j t rv hmove
  obtain ⟨w, hvalue, htemp⟩ := h id hid d j t rv hmove
  refine ⟨w, ?_, (hresult id hid d j t rv hmove).trans htemp⟩
  rw [rvalueInto_congr hmove.speculatable fun o ho => hoperand o (hmove.operands o ho)]
  exact hvalue

section

variable (hstrict : f.Strict) (hreach : Reachable f.Edge 0 b) (h : SimAt E f lp ids b k st st')

include hstrict hreach h

lemma SimAt.execStmt_kept (hpos : (f.blockStmtIds b)[k]? = some id) (hid : id ∉ ids) :
    Rel (SimAt E f lp ids b (k + 1)) (execStmt E f st (f.stmt id))
      (execStmt E f st' (f.stmt id)) := by
  have hstmt : (f.blockStmts b)[k]? = some (f.stmt id) := by
    rw [blockStmts, getElem?_map, hpos, map_some]
  have hrel := h.agree.execStmt (f := f) (s := f.stmt id)
    (fun t ht => present_of_used hstrict hreach (.inl ⟨_, hstmt, ht⟩)) fun _ _ => trivial
  -- no moved statement stands here
  have hnone : ∀ id' ∈ ids, ∀ t rv, ¬ Movable f lp id' b k t rv := by
    intro id' hid' t rv hmove
    have heq : id = id' := some.inj (hpos.symm.trans hmove.position)
    exact hid (heq ▸ hid')
  generalize hx : execStmt E f st (f.stmt id) = x at hrel
  generalize hx' : execStmt E f st' (f.stmt id) = x' at hrel
  cases hrel with
  | error e => exact .error e
  | ok hagree =>
    refine .ok ⟨hagree.mono fun t ht => ht.pred fun id' hid' => hnone id' hid' t, fun hb => ?_⟩
    refine (h.computed hb).congr (fun id' hid' d j t rv hmove => ?_) (fun o ho => ?_)
    · refine execStmt_temps hx' fun hdef => ?_
      obtain ⟨rfl, rfl⟩ := hmove.unique.stmt b k _ hstmt hdef
      exact hnone id' hid' t rv hmove
    · exact execStmt_temps hx' (ho.stmts b hb _ (mem_of_getElem? hstmt))

/-- The first run catches up on a moved statement. -/
lemma SimAt.execStmt_moved (hmove : Movable f lp id b k t rv) (hid : id ∈ ids) :
    Rel (SimAt E f lp ids b (k + 1)) (execStmt E f st (.assign t rv)) (execStmt E f st' .nop) := by
  obtain ⟨w, hvalue, htemp⟩ := h.computed hmove.inside id hid b k t rv hmove
  have hsame : rvalueInto E f st t rv = .ok w := by
    rw [← hvalue]
    refine (rvalueInto_congr hmove.speculatable (fun o ho => h.agree.temps o ?_) t).symm
    exact present_of_used hstrict hreach (.inl ⟨_, hmove.blockStmt, ho⟩)
  have hrel := execStmt_speculated (E := E) (f := f) hmove.speculatable st t
  rw [hsame] at hrel
  generalize execStmt E f st (.assign t rv) = x at hrel
  cases hrel with
  | ok hwrote =>
    refine .ok ⟨⟨fun u hu => ?_, ?_, fun l hl => ?_, ?_⟩,
      fun hb => (h.computed hb).congr (fun _ _ _ _ _ _ _ => rfl) fun _ _ => rfl⟩
    · by_cases hut : u = t
      · subst hut
        exact htemp.trans hwrote.value.symm
      · rw [hwrote.agree.temps u hut]
        refine h.agree.temps u (hu.pred fun id' _ rv' hmove' => hut ?_)
        have heq : id' = id := some.inj (hmove'.position.symm.trans hmove.position)
        subst heq
        exact (assign.inj (hmove'.stmt.symm.trans hmove.stmt)).1
    · exact h.agree.heap.trans hwrote.agree.heap.symm
    · exact (h.agree.slots l hl).trans (hwrote.agree.slots l hl).symm
    · rw [hwrote.agree.events, ← h.agree.events]
      exact filter_append ..|>.trans (by simp [isObservable])

end

end Statement

/-! ## Statement lists -/

section Block

variable {E : Env} {f g : AmirFunc} {lp : LoopInfo} {ids : List InstrId} {b : BlockId}
  {st st' : State E.host}

lemma SimAt.runStmts (hwf : WellFormed f) (hstrict : f.Strict) (hreach : Reachable f.Edge 0 b)
    (hmovable : ∀ id ∈ ids, ∃ d j t rv, Movable f lp id d j t rv)
    {pre mid post : List InstrId} (hsplit : f.blockStmtIds b = pre ++ mid ++ post)
    (h : SimAt E f lp ids b pre.length st st') :
    RunsAlike (SimAt E f lp ids b (pre ++ mid).length) SameObservation
      (runStmts E f (mid.map f.stmt) st)
      (runStmts E f (mid.map fun id => if id ∈ ids then .nop else f.stmt id) st') := by
  induction mid generalizing pre st st' with
  | nil =>
    rw [append_nil]
    exact .ok h
  | cons id mid ih =>
    have hpos : (f.blockStmtIds b)[pre.length]? = some id := by
      rw [hsplit]
      simp
    have hstep : Rel (SimAt E f lp ids b (pre.length + 1)) (execStmt E f st (f.stmt id))
        (execStmt E f st' (if id ∈ ids then .nop else f.stmt id)) := by
      split
      next hid =>
        obtain ⟨d, j, t, rv, hmove⟩ := hmovable id hid
        obtain ⟨rfl, rfl⟩ := hwf.position_unique hmove.position hpos
        rw [hmove.stmt]
        exact h.execStmt_moved hstrict hreach hmove hid
      next hid => exact h.execStmt_kept hstrict hreach hpos hid
    simp only [map_cons, Amir.runStmts]
    generalize execStmt E f st (f.stmt id) = x at hstep
    generalize execStmt E f st' (if id ∈ ids then .nop else f.stmt id) = x' at hstep
    cases hstep with
    | error e => exact .error e (Agree.sameObservation h.agree)
    | ok hnext =>
      have hsplit' : f.blockStmtIds b = (pre ++ [id]) ++ mid ++ post := by simpa using hsplit
      have hlen : pre.length + 1 = (pre ++ [id]).length := by simp
      rw [hlen] at hnext
      simpa using ih hsplit' hnext

/-! ## The end of the preheader -/

lemma runStmts_hoisted {l : List InstrId} (hsub : ∀ id ∈ l, ∃ d j t rv, Movable f lp id d j t rv)
    (hvalues : ∀ id ∈ l, ∀ t rv, f.stmt id = .assign t rv → ∃ w, rvalueInto E f st t rv = .ok w) :
    ∃ st₁, Amir.runStmts E f (l.map f.stmt) st = .ok st₁ ∧
      Agree (fun u => ∀ id ∈ l, ∀ d j rv, ¬ Movable f lp id d j u rv) (fun _ => True)
        isObservable st st₁ ∧ AllComputed E f lp l st₁ := by
  induction l generalizing st with
  | nil => exact ⟨st, rfl, .refl st, nofun⟩
  | cons id l ih =>
    obtain ⟨d, j, t, rv, hmove⟩ := hsub id mem_cons_self
    obtain ⟨w, hw⟩ := hvalues id mem_cons_self t rv hmove.stmt
    have hrel := execStmt_speculated (E := E) (f := f) hmove.speculatable st t
    rw [hw] at hrel
    generalize hx : execStmt E f st (.assign t rv) = x at hrel
    cases hrel with
    | @ok _ st₁ hwrote =>
      -- the first statement does not touch what the others read
      have hkeep : ∀ id' ∈ l, ∀ t' rv', f.stmt id' = .assign t' rv' →
          rvalueInto E f st₁ t' rv' = rvalueInto E f st t' rv' := by
        intro id' hid' t' rv' hstmt
        obtain ⟨d', j', t'', rv'', hmove'⟩ := hsub id' (mem_cons_of_mem _ hid')
        obtain ⟨rfl, rfl⟩ := assign.inj (hstmt.symm.trans hmove'.stmt)
        refine rvalueInto_congr hmove'.speculatable (fun o ho => hwrote.agree.temps o ?_) t'
        intro hot
        subst hot
        exact hmove'.operand_not_moved ho hmove
      have hvalues₁ : ∀ id' ∈ l, ∀ t' rv', f.stmt id' = .assign t' rv' →
          ∃ w, rvalueInto E f st₁ t' rv' = .ok w := by
        intro id' hid' t' rv' hstmt
        rw [hkeep id' hid' t' rv' hstmt]
        exact hvalues id' (mem_cons_of_mem _ hid') t' rv' hstmt
      obtain ⟨st₂, hrun, hagree, hcomputed⟩ :=
        ih (fun id' hid' => hsub id' (mem_cons_of_mem _ hid')) hvalues₁
      refine ⟨st₂, ?_, (hwrote.agree.mono fun u hu hut => ?_).trans
        (hagree.mono fun u hu id' hid' => hu id' (mem_cons_of_mem _ hid')), ?_⟩
      · rw [map_cons, hmove.stmt]
        exact runStmts_cons_ok.2 ⟨st₁, hx, hrun⟩
      · subst hut
        exact hu id mem_cons_self d j rv hmove
      · intro id' hid' d' j' t' rv' hmove'
        by_cases hlater : id' ∈ l
        · exact hcomputed id' hlater d' j' t' rv' hmove'
        · -- the statement is the first one, and nothing after it writes its temp
          obtain rfl := (mem_cons.1 hid').resolve_right hlater
          obtain ⟨rfl, rfl⟩ := assign.inj (hmove'.stmt.symm.trans hmove.stmt)
          refine ⟨w, ?_, ?_⟩
          · rw [← hw]
            refine rvalueInto_congr hmove.speculatable (fun o ho => ?_) t'
            rw [hagree.temps o fun id'' _ _ _ _ => hmove.operand_not_moved ho]
            refine hwrote.agree.temps o fun hot => ?_
            subst hot
            exact hmove.operand_not_moved ho hmove
          · rw [← hwrote.value]
            refine hagree.temps t' fun id'' hid'' d'' j'' rv'' hmove'' => hlater ?_
            exact (hmove.unique_of_temp hmove'').1 ▸ hid''

lemma Hoisted.runBlock (hg : Hoisted f lp ids g) (hwf : WellFormed f) (hstrict : f.Strict)
    (hloop : NaturalLoop f lp) {st₀ : State E.host} (hcomplete : HoistCompletes E f lp ids st₀)
    (hreach : Reachable f.Edge 0 b) (hrun : ReachesBlock E f st₀ b st)
    (h : SimAt E f lp ids b 0 st st') : RunsAlike
      (fun st₁ st₁' => SimAt E f lp ids b (f.blockStmts b).length st₁ st₁' ∧
        (b = lp.preheader → AllComputed E f lp ids st₁'))
      SameObservation (runStmts E f (f.blockStmts b) st) (runStmts E f (g.blockStmts b) st') := by
  have hsplit : f.blockStmtIds b = [] ++ f.blockStmtIds b ++ [] := by simp
  have hblock := SimAt.runStmts hwf hstrict hreach hg.movable hsplit h
  have hlen : ([] ++ f.blockStmtIds b).length = (f.blockStmts b).length := by
    simp [blockStmts]
  rw [hlen] at hblock
  by_cases hb : b = lp.preheader
  · subst hb
    have hown : ((f.blockStmtIds lp.preheader).map fun id =>
        if id ∈ ids then nop else f.stmt id) = f.blockStmts lp.preheader := by
      refine map_congr_left fun id hid => if_neg fun hmem => ?_
      obtain ⟨d, j, t, rv, hmove⟩ := hg.movable id hmem
      have := hwf.stmtOwner d lp.preheader id (mem_of_getElem? hmove.position) hid
      exact hloop.outside (this ▸ hmove.inside)
    rw [hown] at hblock
    rw [hg.preheader, runStmts_append]
    change RunsAlike _ _ (Amir.runStmts E f (f.blockStmts lp.preheader) st) _ at hblock
    generalize hx : Amir.runStmts E f (f.blockStmts lp.preheader) st = x at hblock
    generalize Amir.runStmts E f (f.blockStmts lp.preheader) st' = x' at hblock
    cases hblock with
    | error e hsame => exact .error e hsame
    | @ok st₁ st₁' hsim =>
      -- nothing moved is present here, so what is written now is not needed
      have hoperand : ∀ id ∈ ids, ∀ d j t rv, Movable f lp id d j t rv →
          rvalueInto E f st₁' t rv = rvalueInto E f st₁ t rv := by
        intro id _ d j t rv hmove
        refine rvalueInto_congr hmove.speculatable (fun o ho => hsim.agree.temps o ?_) t
        exact fun _ _ _ _ _ hmove' => absurd hmove' (hmove.operand_not_moved ho)
      have hvalues : ∀ id ∈ ids, ∀ t rv, f.stmt id = .assign t rv →
          ∃ w, rvalueInto E f st₁' t rv = .ok w := by
        intro id hid t rv hstmt
        obtain ⟨d, j, t', rv', hmove⟩ := hg.movable id hid
        obtain ⟨rfl, rfl⟩ := assign.inj (hstmt.symm.trans hmove.stmt)
        rw [hoperand id hid d j t rv hmove]
        exact hcomplete st st₁ hrun hx id hid t rv hstmt
      obtain ⟨st₂, hrun₂, hagree, hcomputed⟩ := runStmts_hoisted hg.movable hvalues
      show RunsAlike _ _ _ (Amir.runStmts E f (ids.map f.stmt) st₁')
      rw [hrun₂]
      refine .ok ⟨⟨hsim.agree.trans (hagree.mono fun u hu id hid d j rv hmove => ?_),
        fun hmem => absurd hmem hloop.outside⟩, fun _ => hcomputed⟩
      rcases hu id hid d j rv hmove with ⟨rfl, -⟩ | ⟨-, hdom⟩
      · exact hloop.outside hmove.inside
      · exact hloop.not_dominates_preheader hmove.inside hreach hdom
  · rw [hg.stmts b hb]
    change RunsAlike _ _ (Amir.runStmts E f (f.blockStmts b) st) _ at hblock
    generalize Amir.runStmts E f (f.blockStmts b) st = x at hblock
    generalize Amir.runStmts E f _ st' = x' at hblock
    cases hblock with
    | error e hsame => exact .error e hsame
    | ok hsim => exact .ok ⟨hsim, fun heq => absurd heq hb⟩

end Block

/-! ## Whole runs -/

section Run

variable {E : Env} {f g : AmirFunc} {lp : LoopInfo} {ids : List InstrId}

/-- What is present at the start of a block is present at the end of its predecessors. -/
lemma Present.edge {b' : BlockId} (h : Present f lp ids b' 0 t)
    (hedge : f.Edge b b') : Present f lp ids b (f.blockStmts b).length t := by
  intro id hid d j rv hmove
  rcases h id hid d j rv hmove with ⟨-, hle⟩ | ⟨hne, hdom⟩
  · exact absurd hle (Nat.not_succ_le_zero j)
  rcases hdom.pred hedge with heq | hdom
  · exact absurd heq hne
  · by_cases hdb : d = b
    · subst hdb
      exact .inl ⟨rfl, lt_of_getElem? hmove.blockStmt⟩
    · exact .inr ⟨hdb, hdom⟩

lemma SimAt.execTerminator (hstrict : f.Strict) (hreturns : ReturnsDefined f)
    (hloop : NaturalLoop f lp) (hreach : Reachable f.Edge 0 b)
    {st st' : State E.host} (h : SimAt E f lp ids b (f.blockStmts b).length st st')
    (hpre : b = lp.preheader → AllComputed E f lp ids st') :
    SimConfig E f lp ids (Amir.execTerminator E f st (f.block b).terminator)
      (Amir.execTerminator E f st' (f.block b).terminator) := by
  have hoperands : ∀ t ∈ operandTemps (f.block b).terminator.operands,
      Present f lp ids b (f.blockStmts b).length t :=
    fun t ht => present_of_used hstrict hreach (.inr ⟨rfl, ht⟩)
  have hregister : (f.block b).terminator = .return →
      Present f lp ids b (f.blockStmts b).length 0 :=
    fun hreturn id hid d j rv hmove => present_of_definedBefore
      (hreturns b hreach hreturn d _ (mem_of_getElem? hmove.blockStmt) rfl) id hid d j rv hmove
  have hrel := h.agree.execTerminator (f := f) hoperands hregister
  generalize Amir.execTerminator E f st (f.block b).terminator = c at hrel
  generalize hc' : Amir.execTerminator E f st' (f.block b).terminator = c' at hrel
  cases hrel with
  | halted o hagree => exact .halted o (Agree.sameObservation hagree)
  | @running b' st₁ st₁' hagree =>
    obtain ⟨args, hargs, htook⟩ := execTerminator_running hc'
    have hedge : f.Edge b b' := AmirTerminator.mem_targets_of_mem_edges hargs
    refine .running b' (hreach.step hedge) ⟨hagree.mono fun t ht => ht.edge hedge, fun hb' => ?_⟩
    have hcomputed : AllComputed E f lp ids st' := by
      by_cases hheader : b' = lp.header
      · rcases hloop.enters b (hheader ▸ hedge) with hb | hb
        · exact h.computed hb
        · exact hpre hb
      · exact h.computed (hloop.closed b b' hb' hheader hedge)
    refine hcomputed.congr (fun id hid d j t rv hmove => ?_) fun o ho => ?_
    · exact htook.temps (hmove.unique.param b')
    · exact htook.temps (ho.params b' hb')

variable {st₀ : State E.host}

variable (hg : Hoisted f lp ids g) (hwf : WellFormed f) (hstrict : f.Strict)
  (hreturns : ReturnsDefined f) (hloop : NaturalLoop f lp)
  (hcomplete : HoistCompletes E f lp ids st₀)
include hg hwf hstrict hreturns hloop hcomplete

lemma Hoisted.step {st st' : State E.host} (hreach : Reachable f.Edge 0 b)
    (hrun : ReachesBlock E f st₀ b st) (h : SimAt E f lp ids b 0 st st') :
    SimConfig E f lp ids (Amir.step E f (.running b st)) (Amir.step E g (.running b st')) := by
  have hblock := hg.runBlock hwf hstrict hloop hcomplete hreach hrun h
  simp only [Amir.step, runStmts_congr hg.temps, hg.terminator,
    execTerminator_congr hg.temps hg.params]
  generalize Amir.runStmts E f (f.blockStmts b) st = x at hblock
  generalize Amir.runStmts E f (g.blockStmts b) st' = x' at hblock
  cases hblock with
  | error e hsame => exact .halted _ hsame
  | ok hsim => exact hsim.1.execTerminator hstrict hreturns hloop hreach hsim.2

lemma Hoisted.runN (n : Nat) :
    SimConfig E f lp ids (Amir.runN E f n (.running 0 st₀)) (Amir.runN E g n (.running 0 st₀)) := by
  induction n with
  | zero =>
    exact .running 0 .start ⟨.refl st₀, fun hmem => absurd hmem hloop.entry_not_mem⟩
  | succ n ih =>
    rw [runN_succ, runN_succ]
    generalize hc : Amir.runN E f n (.running 0 st₀) = c at ih
    generalize Amir.runN E g n (.running 0 st₀) = c' at ih
    cases ih with
    | halted o hsame =>
      exact .halted o hsame
    | running b hreach hsim =>
      exact hg.step hwf hstrict hreturns hloop hcomplete hreach ⟨n, hc⟩ hsim

/-- Where the first run comes to a moved statement, the second run holds its value. -/
lemma Hoisted.value (hid : id ∈ ids) {j : Nat} (hmove : Movable f lp id d j t rv)
    {st : State E.host} (h : ReachesStmt E f st₀ d j st) :
    ∃ st' w, ReachesStmt E g st₀ d j st' ∧ rvalueInto E f st t rv = .ok w ∧
      st'.temps t = some w := by
  obtain ⟨stb, ⟨n, hn⟩, hrun⟩ := h
  have hconfig := hg.runN hwf hstrict hreturns hloop hcomplete n
  rw [hn] at hconfig
  generalize hc' : Amir.runN E g n (.running 0 st₀) = c' at hconfig
  cases hconfig with
  | @running _ _ stb' hreach hsim =>
    have hsplit : f.blockStmtIds d = [] ++ (f.blockStmtIds d).take j ++
        (f.blockStmtIds d).drop j := by
      simp
    have hprefix := SimAt.runStmts hwf hstrict hreach hg.movable hsplit hsim
    have hne : d ≠ lp.preheader := fun heq => hloop.outside (heq ▸ hmove.inside)
    have hlt : j < (f.blockStmtIds d).length := lt_of_getElem? hmove.position
    have hlen : ([] ++ (f.blockStmtIds d).take j).length = j := by
      rw [nil_append, length_take]
      omega
    rw [hlen, map_take, map_take, ← hg.stmts d hne] at hprefix
    change RunsAlike _ _ (Amir.runStmts E f ((f.blockStmts d).take j) stb) _ at hprefix
    rw [hrun] at hprefix
    generalize hx' : Amir.runStmts E f ((g.blockStmts d).take j) stb' = x' at hprefix
    cases hprefix with
    | @ok _ st' hat =>
      obtain ⟨w, hvalue, htemp⟩ := hat.computed hmove.inside id hid d j t rv hmove
      refine ⟨st', w, ⟨stb', ⟨n, hc'⟩, (runStmts_congr hg.temps _ _).trans hx'⟩, ?_, htemp⟩
      rw [← hvalue]
      refine (rvalueInto_congr hmove.speculatable (fun o ho => hat.agree.temps o ?_) t).symm
      exact present_of_used hstrict hreach (.inl ⟨_, hmove.blockStmt, ho⟩)

end Run

/-! ## The next loop -/

section Next

variable {f g : AmirFunc} {lp : LoopInfo} {ids : List InstrId}

variable (hg : Hoisted f lp ids g)
include hg

lemma Hoisted.edge : g.Edge = f.Edge := by
  funext m n
  simp only [Edge, hg.terminator]

lemma Hoisted.naturalLoop {lp' : LoopInfo} (h : NaturalLoop f lp') : NaturalLoop g lp' :=
  ⟨h.header, h.notEntry, h.outside, hg.length.symm ▸ h.preheader, hg.edge.symm ▸ h.enters,
    hg.edge.symm ▸ h.closed, hg.edge.symm ▸ h.dominated, hg.length.symm ▸ h.inside⟩

lemma Hoisted.length_blockStmts_le (b : BlockId) :
    (f.blockStmts b).length ≤ (g.blockStmts b).length := by
  by_cases hb : b = lp.preheader
  · subst hb
    rw [hg.preheader, length_append]
    exact Nat.le_add_right _ _
  · rw [hg.stmts b hb, blockStmts, length_map, length_map]

/-- Moving a definition to the preheader keeps it before everything it was before. -/
lemma Hoisted.definedBefore (hwf : WellFormed f) (hloop : NaturalLoop f lp) {k : Nat}
    (hreach : Reachable f.Edge 0 b) (h : f.DefinedBefore t b k) : g.DefinedBefore t b k := by
  rcases h with hinput | ⟨d, hparam, hdom⟩ | ⟨d, j, s, hs, hdef, hafter⟩
  · exact .inl (by rwa [hg.inputs.1, hg.inputs.2])
  · exact .inr (.inl ⟨d, by rwa [hg.params], hg.edge.symm ▸ hdom⟩)
  · have hafter' : g.After d (j + 1) b k := by rwa [After, hg.edge]
    by_cases hd : d = lp.preheader
    · subst hd
      refine .inr (.inr ⟨_, j, s, ?_, hdef, hafter'⟩)
      rw [hg.preheader, List.getElem?_append_left (lt_of_getElem? hs), hs]
    obtain ⟨id, hpos, hstmt⟩ := stmt_of_blockStmts hs
    by_cases hid : id ∈ ids
    · -- the definition now stands at the end of the preheader
      obtain ⟨d', j', t', rv, hmove⟩ := hg.movable id hid
      obtain ⟨rfl, rfl⟩ := hwf.position_unique hmove.position hpos
      obtain ⟨i, hi⟩ := getElem?_of_mem hid
      refine .inr (.inr ⟨lp.preheader, (f.blockStmts lp.preheader).length + i, s, ?_, hdef,
        .inr ⟨fun heq => ?_, ?_⟩⟩)
      · rw [hg.preheader, getElem?_append_right (Nat.le_add_right _ _), Nat.add_sub_cancel_left,
          getElem?_map, hi, map_some, hstmt]
      · subst heq
        rcases hafter with ⟨hdp, -⟩ | ⟨-, hdom⟩
        · exact hd hdp
        · exact hloop.not_dominates_preheader hmove.inside hreach hdom
      · rw [hg.edge]
        rcases hafter with ⟨rfl, -⟩ | ⟨-, hdom⟩
        · exact hloop.preheader_dominates hmove.inside
        · exact (hloop.preheader_dominates hmove.inside).trans hdom
    · refine .inr (.inr ⟨d, j, s, ?_, hdef, hafter'⟩)
      rw [hg.stmts d hd, getElem?_map, hpos, map_some, if_neg hid, hstmt]

lemma Hoisted.usedAt {k : Nat} (h : g.UsedAt t b k) :
    (∃ i ≤ k, f.UsedAt t b i) ∨ (∃ i ≤ k, f.DefinedBefore t b i) := by
  rcases h with ⟨s, hs, ht⟩ | ⟨rfl, ht⟩
  · by_cases hb : b = lp.preheader
    · subst hb
      rw [hg.preheader] at hs
      by_cases hk : k < (f.blockStmts lp.preheader).length
      · rw [List.getElem?_append_left hk] at hs
        exact .inl ⟨k, Nat.le_refl k, .inl ⟨s, hs, ht⟩⟩
      have hle := not_lt.1 hk
      rw [getElem?_append_right hle, getElem?_map] at hs
      obtain ⟨id, hid, rfl⟩ := map_eq_some_iff.1 hs
      obtain ⟨d, j, t', rv, hmove⟩ := hg.movable id (mem_of_getElem? hid)
      rw [hmove.stmt] at ht
      exact .inr ⟨_, hle, (hmove.operands t ht).available⟩
    · rw [hg.stmts b hb, getElem?_map] at hs
      obtain ⟨id, hpos, rfl⟩ := map_eq_some_iff.1 hs
      split at ht
      · cases ht
      · refine .inl ⟨k, Nat.le_refl k, .inl ⟨f.stmt id, ?_, ht⟩⟩
        rw [blockStmts, getElem?_map, hpos, map_some]
  · rw [hg.terminator] at ht
    exact .inl ⟨_, hg.length_blockStmts_le b, .inr ⟨rfl, ht⟩⟩

lemma Hoisted.strict (hwf : WellFormed f) (hloop : NaturalLoop f lp) (hstrict : f.Strict) :
    g.Strict := by
  intro t b k hreach huse
  rw [hg.edge] at hreach
  rcases hg.usedAt huse with ⟨i, hle, hused⟩ | ⟨i, hle, hdefined⟩
  · exact (hg.definedBefore hwf hloop hreach (hstrict t b i hreach hused)).mono hle
  · exact (hg.definedBefore hwf hloop hreach hdefined).mono hle

lemma Hoisted.exists_def {s : AmirStmt} (hs : s ∈ g.blockStmts d) (hdef : s.def? = some t) :
    ∃ d', ∃ s' ∈ f.blockStmts d', s'.def? = some t := by
  by_cases hd : d = lp.preheader
  · subst hd
    rw [hg.preheader] at hs
    rcases mem_append.1 hs with hs | hs
    · exact ⟨_, s, hs, hdef⟩
    · obtain ⟨id, hid, rfl⟩ := mem_map.1 hs
      obtain ⟨d', j, t', rv, hmove⟩ := hg.movable id hid
      exact ⟨d', f.stmt id, mem_map_of_mem (mem_of_getElem? hmove.position), hdef⟩
  · rw [hg.stmts d hd] at hs
    obtain ⟨id, hid, rfl⟩ := mem_map.1 hs
    split at hdef
    · cases hdef
    · exact ⟨d, f.stmt id, mem_map_of_mem hid, hdef⟩

lemma Hoisted.returnsDefined (hwf : WellFormed f) (hloop : NaturalLoop f lp)
    (h : ReturnsDefined f) : ReturnsDefined g := by
  intro b hreach hterm d s hs hdef
  rw [hg.edge] at hreach
  rw [hg.terminator] at hterm
  obtain ⟨d', s', hs', hdef'⟩ := hg.exists_def hs hdef
  exact (hg.definedBefore hwf hloop hreach (h b hreach hterm d' s' hs' hdef')).mono
    (hg.length_blockStmts_le b)

end Next

/-! ## All loops -/

section Loops

lemma SameObservation.trans {st₁ st₂ st₃ : State E.host}
    (h₁ : SameObservation st₁ st₂) (h₂ : SameObservation st₂ st₃) : SameObservation st₁ st₃ :=
  Agree.trans h₁ h₂

variable (E : Env) (st₀ : State E.host) (order : List BlockId)

/-- `HoistCompletes` for every loop, at the function the pass has then. -/
def HoistsComplete : List LoopInfo → AmirFunc → Prop
  | [], _ => True
  | lp :: loops, f => ∀ doms, new f = some doms →
    HoistCompletes E f lp (sortedCandidates f lp doms order) st₀ ∧
      HoistsComplete loops (hoistLoop f lp doms order).2

/-- Where a run comes to a statement that a loop moves, the run after the move stands at the
same place and holds the value the statement computes. -/
def HoistsKeepValues : List LoopInfo → AmirFunc → Prop
  | [], _ => True
  | lp :: loops, f => ∀ doms, new f = some doms →
    (∀ id ∈ sortedCandidates f lp doms order, ∀ d j t rv, (f.blockStmtIds d)[j]? = some id →
      f.stmt id = .assign t rv → ∀ st, ReachesStmt E f st₀ d j st →
        ∃ st' w, ReachesStmt E (hoistLoop f lp doms order).2 st₀ d j st' ∧
          rvalueInto E f st t rv = .ok w ∧ st'.temps t = some w) ∧
      HoistsKeepValues loops (hoistLoop f lp doms order).2

variable {E st₀ order}

lemma hoistLoops_preserves {loops : List LoopInfo} {f : AmirFunc} (hwf : WellFormed f)
    (hcfg : f.CfgCovers) (hstrict : f.Strict) (hreturns : ReturnsDefined f)
    (hloops : ∀ lp ∈ loops, NaturalLoop f lp) (hcomplete : HoistsComplete E st₀ order loops f) :
    ∃ changed g, hoistLoops order loops f = some (changed, g) ∧
      (∀ n, Config.Rel SameObservation (runN E f n (.running 0 st₀))
        (runN E g n (.running 0 st₀))) ∧ HoistsKeepValues E st₀ order loops f := by
  induction loops generalizing f with
  | nil =>
    exact ⟨false, f, rfl, fun n => .of_refl .refl _, trivial⟩
  | cons lp loops ih =>
    obtain ⟨doms, hdoms⟩ : ∃ doms, new f = some doms := by
      obtain ⟨idoms, -, hnew⟩ := exists_new hwf.nonempty hcfg.mirror
      exact ⟨_, hnew⟩
    have hloop := hloops lp mem_cons_self
    obtain ⟨hnow, hlater⟩ := hcomplete doms hdoms
    obtain ⟨hwf', hcfg', hg⟩ := hoistLoop_hoisted hwf hcfg hdoms hloop order
    obtain ⟨changed, g, hpass, hruns, hvalues⟩ := ih hwf' hcfg' (hg.strict hwf hloop hstrict)
      (hg.returnsDefined hwf hloop hreturns)
      (fun lp' hlp' => hg.naturalLoop (hloops lp' (mem_cons_of_mem _ hlp'))) hlater
    refine ⟨(hoistLoop f lp doms order).1 || changed, g, ?_, fun n => ?_, ?_⟩
    · simp only [hoistLoops, hdoms, hpass, bind, Option.bind]
    · have hfirst := hg.runN hwf hstrict hreturns hloop hnow n
      have hrest := hruns n
      generalize runN E f n (.running 0 st₀) = c at hfirst
      generalize runN E (hoistLoop f lp doms order).2 n (.running 0 st₀) = c' at hfirst hrest
      generalize runN E g n (.running 0 st₀) = c'' at hrest
      cases hfirst with
      | running b hreach hsim =>
        cases hrest with
        | running _ hsame =>
          exact .running b (SameObservation.trans (Agree.sameObservation hsim.agree) hsame)
      | halted o hobs =>
        cases hrest with
        | halted _ hsame => exact .halted o (SameObservation.trans hobs hsame)
    · intro doms' hdoms'
      cases hdoms.symm.trans hdoms'
      refine ⟨fun id hid d j t rv hpos hstmt st hreach => ?_, hvalues⟩
      obtain ⟨d', j', t', rv', hmove⟩ := hg.movable id hid
      obtain ⟨rfl, rfl⟩ := hwf.position_unique hmove.position hpos
      obtain ⟨rfl, rfl⟩ := assign.inj (hstmt.symm.trans hmove.stmt)
      exact hg.value hwf hstrict hreturns hloop hnow hid hmove hreach

end Loops

/-- `i32`, `f64`, `bool`. -/
def convertTypes : TypeInterner := ⟨[.primitive .i32, .primitive .f64, .primitive .bool]⟩

def convertEnv : Env where
  interner := convertTypes
  pool := ⟨[]⟩
  host := Host.lengths
  frame := fun _ => false

/-- `while c { let y = x as i32 }; return c`, where `_1` is `c` and `_2` is `x`, of type `ty`. -/
def guardedConversion (ty : TypeId) : AmirFunc :=
  let blocks : List AmirBasicBlock :=
    [ ⟨0, .empty, .empty, .goto 1 []⟩, ⟨1, .empty, .empty, .branch (.copy 1) 2 [] 3 []⟩,
      ⟨2, .empty, ⟨0, 1⟩, .goto 1 []⟩,
      ⟨3, .empty, ⟨1, 1⟩, .return⟩ ]
  { symbol := 0, returnType := 2, receiver := none, params := [1, 2], locals := []
    temps := [⟨0, 2, true, false⟩, ⟨1, 2, true, false⟩, ⟨2, ty, true, false⟩, ⟨3, 0, true, false⟩]
    blocks := blocks, blockParams := []
    stmts := [.assign 3 (.use (.copy 2)), .assign 0 (.use (.copy 1))]
    cfg := computeCfgEdges blocks }

def skippedLoop (x : Host.lengths.Val) : State Host.lengths :=
  .ofInputs (h := Host.lengths) (0 : Int) () [(1, .bool false), (2, x)]

lemma guardedConversion_valid (ty : TypeId) (h : ty < 2) :
    validateAmirFunc (guardedConversion ty) convertTypes = [] ∧ (guardedConversion ty).Ssa ∧
      CfgInherited (guardedConversion ty) (guardedConversion ty) ∧
      ReturnsDefined (guardedConversion ty) := by
  have hall : ∀ c < 2, validateAmirFunc (guardedConversion c) convertTypes = [] ∧
      isSsa (guardedConversion c) = true := by
    decide
  have hcheck := hall ty h
  have hwf := wellFormed_of_validate hcheck.1
  have hcfg := cfgCovers_of_compute (f := guardedConversion ty) rfl hwf.targets
  refine ⟨hcheck.1, ssa_of_isSsa hcfg hwf.targets hcheck.2,
    cfgInherited_refl hwf (cfgExact_of_compute rfl hwf.targets), ?_⟩
  intro b _ hterm d s hs hdef
  -- the only block that returns writes the register before
  match b, hterm with
  | 3, _ =>
    exact .inr (.inr ⟨3, 0, .assign 0 (.use (.copy 1)), rfl, rfl, .inl ⟨rfl, Nat.le_refl 1⟩⟩)
  | 0, hterm | 1, hterm | 2, hterm | n + 4, hterm => cases hterm

end Arandu.Mir
