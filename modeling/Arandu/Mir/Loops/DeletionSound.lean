import Arandu.Amir.SsaCheck
import Arandu.Library.Acceleration
import Arandu.Mir.Dce
import Arandu.Mir.Loops.Deletion

/-!
# Deleted loops were finite and unobservable

While the original runs through a loop that is deleted, nothing changes but temps defined in the
loop, locals whose storage the loop marks, and the invisible part of the trace (`Skips`). Blocks
inside an iteration cannot repeat, and each iteration advances the counter by one below a bound
of its own type, so the header is left through its exit edge (`leavesLoop`).

The pass does not check everything this needs; `SkipSafe` lists the rest.
-/

namespace Arandu.Mir

open Arandu.Amir Arandu.Library List AmirFunc Option AmirTerminator Config Res AmirOperand

/-! ## What the pass takes for granted -/

/-- The host operations behind the rvalues that the pass calls inert do not trap. Loads through an
index projection are not inert, so they may. -/
structure PureHost (interner : TypeInterner) (f : AmirFunc) (h : Host) : Prop where
  unary : ∀ op x ty v, isInertRvalue interner f (.unary op x) = true →
    h.unary op ty v ≠ .error .trap
  binary : ∀ op x y ty a b, isInertRvalue interner f (.binary op x y) = true →
    h.binary op ty a b ≠ .error .trap
  /-- in a statement that is inert, reached with `in_bounds` set only -/
  index : ∀ heap b i, h.index heap b i ≠ .error .trap
  read : ∀ rv ty vals heap, isInertRvalue interner f rv = true →
    h.read rv.shape ty vals heap ≠ .error .trap
  place : ∀ rv ty vals heap slot, isInertRvalue interner f rv = true →
    h.place rv.shape ty vals heap slot ≠ .error .trap

/-- The value of a statement exists, but bringing it into the type of its temp traps. -/
def ConversionTraps (E : Env) (f : AmirFunc) (st : State E.host) : AmirStmt → Prop
  | .assign t rv => ∃ tmp vals v, f.temps[t]? = some tmp ∧
      evalOperands E st rv.operands = .ok vals ∧ readRvalue E f st tmp.ty rv vals = .ok v ∧
      assignValue E f tmp rv v = .error .trap
  | .call (some t) callee args => ∃ tmp c vals v heap, f.temps[t]? = some tmp ∧
      evalOperands E st (callee :: args) = .ok (c :: vals) ∧
      E.host.call c vals st.heap = .ok (v, heap) ∧ E.conform tmp.ty v = .error .trap
  | _ => False

/-- The loop starts or ends the storage of the local. -/
def StorageMarked (f : AmirFunc) (lp : LoopInfo) (l : LocalId) : Prop :=
  ∃ b ∈ lp.body, .storageLive l ∈ f.blockStmts b ∨ .storageDead l ∈ f.blockStmts b

/-- The counter and the temps it is advanced by have one type, which holds the bound. -/
structure CounterTyped (E : Env) (f : AmirFunc) (lp : LoopInfo) (st₀ : State E.host)
    (iv : TempId) (bound : AmirOperand) (tmp : AmirTemp) (s : IntShape) : Prop where
  one : s.wrap 1 = 1
  bound : ∀ st v, ReachesStmt E f st₀ lp.header (f.blockStmts lp.header).length st →
    evalOperand E st bound = .ok v → ∃ m, v = .int m ∧ s.wrap m = m
  next : ∀ b pos next, counterPosition f lp iv = some pos → latchNext f lp pos b = some next →
    operandTy? f (.copy next) = some tmp.ty ∧
      ∀ x y, definitionIn f lp.body next = some (.binary .add x y) →
        ∀ op ∈ [x, y], ∀ t, op.temp? = some t → operandTy? f op = some tmp.ty

/-- What the deletion of a loop needs beyond the checks of the pass. -/
structure SkipSafe (E : Env) (f : AmirFunc) (lp : LoopInfo) (st₀ : State E.host) : Prop where
  /-- the return register is not written in the loop -/
  register : 0 ∉ definedIn f lp
  /-- the locals the loop marks are private and used nowhere else -/
  storage : ∀ l, StorageMarked f lp l → E.frame l = false ∧
    ∀ b ∉ lp.body, ∀ s ∈ f.blockStmts b, s.localId? ≠ some l
  /-- no conversion in the loop traps -/
  stmts : ∀ b ∈ lp.body, ∀ k st s, ReachesStmt E f st₀ b k st → (f.blockStmts b)[k]? = some s →
    ¬ ConversionTraps E f st s
  /-- no conversion on the edges into the loop and inside it traps -/
  edges : ∀ b b' args st, ReachesStmt E f st₀ b (f.blockStmts b).length st →
    (b', args) ∈ (f.block b).terminator.edges → b' ∈ lp.body →
    paramValues E f st (f.blockParamsOf b') args ≠ .error .trap
  counter : ∀ condition iv bound tmp s, headerTest f lp condition = some (iv, bound) →
    f.temps[iv]? = some tmp → (E.kind tmp.ty).intShape? = some s →
    CounterTyped E f lp st₀ iv bound tmp s

/-! ## Inert statements -/

/-- From the first state to the second, only the loop's own temps, storage and invisible
statements differ. -/
def Skips (E : Env) (f : AmirFunc) (removable : List SymbolId) (lp : LoopInfo)
    (st st' : State E.host) : Prop :=
  Agree (fun t => t ∉ definedIn f lp) (fun l => ¬ StorageMarked f lp l)
    (fun s => !isInert E.interner f removable s) st st'

variable {E : Env} {f : AmirFunc} {removable : List SymbolId} {lp : LoopInfo} {exit b : BlockId}
  {args : List AmirOperand} {st₀ st st' st₁ : State E.host} {rv : AmirRvalue} {t : TempId}
  {s : AmirStmt} {vals : List E.host.Val}

lemma isInert_call {lhs : Option TempId} {callee : AmirOperand}
    (h : isInert E.interner f removable (.call lhs callee args) = true) :
    ∃ sym ∈ removable, callee = .functionRef sym := by
  unfold isInert at h
  split at h
  · cases h
  split at h
  next heq => cases heq
  next heq => cases heq
  next heq => cases heq
  next sym _ heq =>
    cases heq
    exact ⟨sym, by simpa using h, rfl⟩
  next heq => cases heq
  · cases h

lemma isInert_assign (h : isInert E.interner f removable (.assign t rv) = true) :
    isInertRvalue E.interner f rv = true := by
  unfold isInert at h
  split at h
  · cases h
  · exact h

lemma not_isInert (h : isInert E.interner f removable s = true) :
    (∃ t rv, s = .assign t rv) ∨ (∃ lhs c args, s = .call lhs c args) ∨ (∃ l, s = .storageLive l) ∨
      (∃ l, s = .storageDead l) ∨ s = .nop := by
  unfold isInert at h
  split at h
  · cases h
  cases s with
  | assign t rv => exact .inl ⟨t, rv, rfl⟩
  | call lhs c args => exact .inr (.inl ⟨lhs, c, args, rfl⟩)
  | storageLive l => exact .inr (.inr (.inl ⟨l, rfl⟩))
  | storageDead l => exact .inr (.inr (.inr (.inl ⟨l, rfl⟩)))
  | nop => exact .inr (.inr (.inr (.inr rfl)))
  | _ => cases h

lemma isEffect_of_inert (h : isInertRvalue E.interner f rv = true) : rv.isEffect = false := by
  cases rv <;> first | rfl | cases h

lemma evalOperands_functionRef {sym : SymbolId} {c : E.host.Val}
    (h : evalOperands E st (.functionRef sym :: args) = .ok (c :: vals)) :
    c = .obj (E.host.symbol sym) := by
  obtain ⟨v, vs, hv, -, heq⟩ := evalOperands_cons_ok.1 h
  cases hv
  cases heq
  rfl

lemma execStmt_skips (heffect : EffectFree E.host removable)
    (hstorage : ∀ l, StorageMarked f lp l → E.frame l = false) (hb : b ∈ lp.body)
    (hs : s ∈ f.blockStmts b) (hinert : isInert E.interner f removable s = true)
    (h : execStmt E f st s = .ok st₁) : Skips E f removable lp st st₁ := by
  have htemps : ∀ t, t ∉ definedIn f lp → st₁.temps t = st.temps t := fun t ht =>
    execStmt_temps h fun hdef => ht (mem_definedIn_of_stmt hb hs hdef)
  obtain ⟨vals, st₂, hvals, happ, rfl⟩ := execStmt_ok.1 h
  -- what is left is the memory after the statement
  suffices hmem : st₂.heap = st.heap ∧ (∀ l, ¬ StorageMarked f lp l → st₂.slots l = st.slots l) by
    refine ⟨htemps, hmem.1, hmem.2, ?_⟩
    rw [applyStmt_trace happ]
    simp [hinert]
  have hmarked : ∀ l live, (s = .storageLive l ∨ s = .storageDead l) →
      applyStmt.storage E st live l = st.setSlot l (E.host.storageSlot live l) ∧
        StorageMarked f lp l := by
    intro l live heq
    have hmark : StorageMarked f lp l := by
      refine ⟨b, hb, ?_⟩
      rcases heq with rfl | rfl
      · exact .inl hs
      · exact .inr hs
    exact ⟨by simp [applyStmt.storage, hstorage l hmark], hmark⟩
  have hslot : ∀ l x, StorageMarked f lp l → ∀ k, ¬ StorageMarked f lp k →
      (st.setSlot l x).slots k = st.slots k := by
    intro l x hl k hk
    have hne : k ≠ l := fun heq => hk (heq ▸ hl)
    simp [State.setSlot, hne]
  rcases not_isInert hinert with ⟨t, rv, rfl⟩ | ⟨lhs, c, args, rfl⟩ | ⟨l, rfl⟩ | ⟨l, rfl⟩ | rfl
  · obtain ⟨hheap, hslots⟩ :=
      applyStmt_assign_memory (isEffect_of_inert (isInert_assign hinert)) happ
    exact ⟨hheap, fun l _ => congrFun hslots l⟩
  · obtain ⟨sym, hsym, rfl⟩ := isInert_call hinert
    obtain ⟨hheap, hslots⟩ := applyStmt_call_memory heffect hsym hvals happ
    exact ⟨hheap, fun l _ => congrFun hslots l⟩
  · obtain ⟨heq, hmark⟩ := hmarked l true (.inl rfl)
    simp only [applyStmt, heq] at happ
    cases happ
    exact ⟨rfl, hslot l _ hmark⟩
  · obtain ⟨heq, hmark⟩ := hmarked l false (.inr rfl)
    simp only [applyStmt, heq] at happ
    cases happ
    exact ⟨rfl, hslot l _ hmark⟩
  · cases happ
    exact ⟨rfl, fun _ _ => rfl⟩

/-! ## No trap in the loop -/

section Traps

variable (hpure : PureHost E.interner f E.host)
include hpure

lemma evalBinary_pure (shape : Option IntShape) {op : BinaryOp} {x y : AmirOperand}
    (hop : isInertRvalue E.interner f (.binary op x y) = true) (ty : TypeId) (a b : E.host.Val) :
    E.host.evalBinary shape op ty a b ≠ .error .trap := by
  have hhost := fun a b => hpure.binary op x y ty a b hop
  cases a with
  | int a =>
    cases b with
    | int b =>
      cases op <;> first
        | exact hhost _ _
        | (simp [Host.evalBinary, intBinary]; done)
        | cases hop
    | _ => exact hhost _ _
  | bool a =>
    cases b with
    | bool b =>
      cases op <;> first
        | exact hhost _ _
        | simp [Host.evalBinary, boolBinary]
    | _ => exact hhost _ _
  | _ => cases b <;> exact hhost _ _

lemma evalUnary_pure {op : UnaryOp} {x : AmirOperand}
    (hop : isInertRvalue E.interner f (.unary op x) = true) (ty : TypeId) (v : E.host.Val) :
    E.host.evalUnary op ty v ≠ .error .trap := by
  have hhost := fun v => hpure.unary op x ty v hop
  cases v <;> cases op <;> first
    | exact hhost _
    | simp [Host.evalUnary]

attribute [local simp] readRvalue

lemma readRvalue_inert (hinert : isInertRvalue E.interner f rv = true) (ty : TypeId)
    (vals : List E.host.Val) : readRvalue E f st ty rv vals ≠ .error .trap := by
  cases rv with
  | load p => exact hpure.place (.load p) _ _ _ _ hinert
  | binary op x y =>
    rcases vals with _ | ⟨a, _ | ⟨b, _ | ⟨c, vals⟩⟩⟩
    · exact hpure.read _ _ _ _ hinert
    · exact hpure.read _ _ _ _ hinert
    · exact evalBinary_pure hpure _ hinert _ _ _
    · exact hpure.read _ _ _ _ hinert
  | unary op x =>
    rcases vals with _ | ⟨a, _ | ⟨b, vals⟩⟩ <;> cases op <;> first
      | exact hpure.read _ _ _ _ hinert
      | exact evalUnary_pure hpure hinert _ _
  | indexAccess x y k =>
    obtain rfl : k = true := hinert
    have hindex : ∀ a i, readRvalue E f st ty (.indexAccess x y true) [a, .int i] ≠
        .error .trap := by
      intro a i
      simp only [readRvalue]
      split
      · exact hpure.index _ _ _
      · simp
    rcases vals with _ | ⟨a, _ | ⟨b, _ | ⟨c, vals⟩⟩⟩
    · simp
    · simp
    · cases b <;> first
        | exact hindex _ _
        | simp
    · simp
  | use op =>
    rcases vals with _ | ⟨a, _ | ⟨b, vals⟩⟩ <;> first
      | exact hpure.read _ _ _ _ hinert
      | simp
  | len op =>
    rcases vals with _ | ⟨a, _ | ⟨b, vals⟩⟩
    · exact hpure.read _ _ _ _ hinert
    · simp only [readRvalue]
      split <;> simp
    · exact hpure.read _ _ _ _ hinert
  | _ => cases hinert

attribute [local simp] bind_eq_error

/-- An inert statement traps in a conversion only. -/
lemma conversionTraps_of_trap (heffect : EffectFree E.host removable)
    (hinert : isInert E.interner f removable s = true) (h : execStmt E f st s = .error .trap) :
    ConversionTraps E f st s := by
  rcases bind_eq_error.1 h with hvals | ⟨vals, hvals, h⟩
  · exact absurd (evalOperands_error hvals) (by simp)
  have happ : applyStmt E f st s vals = .error .trap := by simpa using h
  rcases not_isInert hinert with ⟨t, rv, rfl⟩ | ⟨lhs, c, args, rfl⟩ | ⟨l, rfl⟩ | ⟨l, rfl⟩ | rfl
  · have hrv := isInert_assign hinert
    simp only [applyStmt, evalRvalue, isEffect_of_inert hrv, Bool.false_eq_true] at happ
    split at happ
    · cases happ
    next tmp htmp =>
      rcases bind_eq_error.1 happ with hread | ⟨⟨v, heap⟩, hread, hassign⟩
      · exact absurd (by simpa using hread) (readRvalue_inert hpure hrv _ _)
      · obtain ⟨v', hread', heq⟩ := bind_eq_ok.1 hread
        cases heq
        exact ⟨tmp, vals, v, htmp, hvals, hread', by simpa using hassign⟩
  · obtain ⟨sym, hsym, rfl⟩ := isInert_call hinert
    cases vals with
    | nil => cases happ
    | cons callee vals =>
      obtain rfl := evalOperands_functionRef hvals
      have hcall := heffect sym hsym vals st.heap
      rcases bind_eq_error.1 happ with hv | ⟨⟨v, heap⟩, hv, hrest⟩
      · rw [hv] at hcall
        cases hcall
      cases lhs with
      | none => cases hrest
      | some t =>
        simp only at hrest
        split at hrest
        · cases hrest
        next tmp htmp =>
          exact ⟨tmp, _, vals, v, heap, htmp, hvals, hv, by simpa using hrest⟩
  · cases happ
  · cases happ
  · cases happ

end Traps

/-! ## A run through the loop -/

structure SkippedRun (E : Env) (f : AmirFunc) (removable : List SymbolId) (lp : LoopInfo)
    (exit : BlockId) (args : List AmirOperand) (st₀ : State E.host) : Prop where
  wf : WellFormed f
  ssa : f.Ssa
  cfg : f.CfgCovers
  loop : NaturalLoop f lp
  dead : DeadLoop E.interner E.pool removable f lp exit args
  init : IsInitial E f st₀
  effect : EffectFree E.host removable
  pure : PureHost E.interner f E.host
  safe : SkipSafe E f lp st₀
  meaning : ∀ n, ¬ (runN E f n (.running 0 st₀)).isStuck

variable (h : SkippedRun E f removable lp exit args st₀)

section Loop

include h

lemma SkippedRun.step_not_stuck (hreach : ReachesBlock E f st₀ b st) :
    ¬ (step E f (.running b st)).isStuck := by
  obtain ⟨n, hn⟩ := hreach
  have := h.meaning (n + 1)
  rwa [runN_succ, hn] at this

lemma SkippedRun.runStmts_body (hb : b ∈ lp.body) (hreach : ReachesBlock E f st₀ b st) :
    ∃ st₁, runStmts E f (f.blockStmts b) st = .ok st₁ ∧ Skips E f removable lp st st₁ := by
  -- from any point of the block on
  have key : ∀ (rest done : List AmirStmt) (stk : State E.host), f.blockStmts b = done ++ rest →
      runStmts E f done st = .ok stk → Skips E f removable lp st stk →
      ∃ st₁, runStmts E f rest stk = .ok st₁ ∧ Skips E f removable lp st st₁ := by
    intro rest
    induction rest with
    | nil => exact fun done stk _ _ hskips => ⟨stk, rfl, hskips⟩
    | cons s rest ih =>
      intro done stk hsplit hrun hskips
      have hget : (f.blockStmts b)[done.length]? = some s := by
        rw [hsplit]
        simp
      have hmem : s ∈ f.blockStmts b := mem_of_getElem? hget
      have hinert := h.dead.inert b hb s hmem
      have hstmt : ReachesStmt E f st₀ b done.length stk := by
        refine ⟨st, hreach, ?_⟩
        rw [hsplit, take_left']
        · exact hrun
        · rfl
      cases hexec : execStmt E f stk s with
      | ok stn =>
        have hnext := execStmt_skips h.effect (fun l hl => (h.safe.storage l hl).1) hb hmem
          hinert hexec
        obtain ⟨st₁, hrest, hskips₁⟩ := ih (done ++ [s]) stn (by simpa using hsplit)
          (runStmts_append_ok.2 ⟨stk, hrun, runStmts_cons_ok.2 ⟨stn, hexec, rfl⟩⟩)
          (Agree.trans hskips hnext)
        exact ⟨st₁, runStmts_cons_ok.2 ⟨stn, hexec, hrest⟩, hskips₁⟩
      | error e =>
        cases e with
        | trap =>
          exact absurd (conversionTraps_of_trap h.pure h.effect hinert hexec)
            (h.safe.stmts b hb _ stk s hstmt hget)
        | stuck =>
          refine absurd ?_ (h.step_not_stuck hreach)
          have hall : runStmts E f (f.blockStmts b) st = .error (.stuck, stk) := by
            rw [hsplit, runStmts_append, hrun]
            simp [bind, Except.bind, runStmts, hexec]
          rw [step, hall]
          trivial
  exact key (f.blockStmts b) [] st rfl rfl (.refl st)

lemma SkippedRun.jump_body {b' : BlockId} {args' : List AmirOperand}
    (hreach : ReachesStmt E f st₀ b (f.blockStmts b).length st₁)
    (hedge : (b', args') ∈ (f.block b).terminator.edges) (hb' : b' ∈ lp.body) (heap : E.host.Heap)
    (hmeaning : ¬ (jump E f { st₁ with heap := heap } b' args').isStuck) :
    ∃ st', jump E f { st₁ with heap := heap } b' args' = .running b' st' ∧
      Skips E f removable lp { st₁ with heap := heap } st' ∧
      TookEdge E f st₁ args' b' st' := by
  have hcongr : paramValues E f { st₁ with heap := heap } (f.blockParamsOf b') args' =
      paramValues E f st₁ (f.blockParamsOf b') args' :=
    paramValues_temps (by rfl) _ _
  cases hparams : paramValues E f { st₁ with heap := heap } (f.blockParamsOf b') args' with
  | ok as =>
    have hjump : jump E f { st₁ with heap := heap } b' args' =
        .running b' (setParams E { st₁ with heap := heap } as) := by
      rw [jump, hparams]
    refine ⟨_, hjump, ⟨fun t ht => ?_, ?_, fun l _ => ?_, ?_⟩, heap, as, hparams, rfl⟩
    · refine setParams_temps fun hmem => ht (mem_definedIn_of_param hb' ?_)
      rwa [← paramValues_keys hparams]
    · exact setParams_heap _ _
    · exact congrFun (setParams_slots _ _) l
    · rw [setParams_trace]
  | error e =>
    cases e with
    | trap => exact absurd (hcongr ▸ hparams) (h.safe.edges b b' args' st₁ hreach hedge hb')
    | stuck =>
      refine absurd ?_ hmeaning
      rw [jump, hparams]
      trivial

end Loop

/-! ## The counter -/

variable {s : IntShape} {tmp : AmirTemp} {n : Int} {iv : TempId} {pos k : Nat} {v w : E.host.Val}

lemma definitionIn_some {blocks : List BlockId} (h : definitionIn f blocks t = some rv) :
    ∃ b ∈ blocks, ∃ j : Nat, (f.blockStmts b)[j]? = some (.assign t rv) := by
  unfold definitionIn at h
  split at h
  next b lhs rhs hone =>
    split at h
    next hb =>
      cases h
      have hmem : (b, .assign lhs rv) ∈ f.blocks.flatMap (definingStmts f t) := by
        rw [hone]
        exact mem_cons_self
      obtain ⟨block, hblock, hmem⟩ := mem_flatMap.1 hmem
      obtain ⟨s, hs, heq⟩ := mem_map.1 hmem
      cases heq
      obtain ⟨hstmt, hdef⟩ := mem_filter.1 hs
      obtain rfl : lhs = t := by simpa [AmirStmt.def?] using hdef
      obtain ⟨j, hj⟩ := getElem?_of_mem hstmt
      exact ⟨block.id, by simpa using hb, j, hj⟩
    · cases h
  · cases h

lemma headerTest_some {c : TempId} {bound : AmirOperand}
    (h : headerTest f lp c = some (iv, bound)) : ∃ (j : Nat) (op : BinaryOp) (x y : AmirOperand),
      (f.blockStmts lp.header)[j]? = some (.assign c (.binary op x y)) ∧
      (op = .lt ∧ x = .copy iv ∧ y = bound ∨ op = .gt ∧ x = bound ∧ y = .copy iv) := by
  have hstmt : ∀ rv, definitionIn f [lp.header] c = some rv →
      ∃ j : Nat, (f.blockStmts lp.header)[j]? = some (.assign c rv) := by
    intro rv hdef
    obtain ⟨b, hb, j, hj⟩ := definitionIn_some hdef
    exact ⟨j, mem_singleton.1 hb ▸ hj⟩
  unfold headerTest at h
  split at h
  next hdef =>
    cases h
    obtain ⟨j, hj⟩ := hstmt _ hdef
    exact ⟨j, _, _, _, hj, .inl ⟨rfl, rfl, rfl⟩⟩
  next hdef =>
    cases h
    obtain ⟨j, hj⟩ := hstmt _ hdef
    exact ⟨j, _, _, _, hj, .inr ⟨rfl, rfl, rfl⟩⟩
  · cases h

lemma isSuccessor_some {pool : AmirLiteralPool} {next : TempId}
    (h : isSuccessor pool f lp iv next = true) :
    ∃ d ∈ lp.body, ∃ (j : Nat) (x y : AmirOperand), (f.blockStmts d)[j]? =
      some (.assign next (.binary .add x y)) ∧
      definitionIn f lp.body next = some (.binary .add x y) ∧
      ((x = .copy iv ∧ isOne pool f y = true) ∨ (y = .copy iv ∧ isOne pool f x = true)) := by
  unfold isSuccessor at h
  split at h
  next base step hdef =>
    simp only [Bool.and_eq_true, beq_iff_eq] at h
    obtain ⟨d, hd, j, hj⟩ := definitionIn_some hdef
    exact ⟨d, hd, j, _, _, hj, hdef, .inl ⟨by rw [h.1], h.2⟩⟩
  next step base hdef =>
    simp only [Bool.and_eq_true, beq_iff_eq] at h
    obtain ⟨d, hd, j, hj⟩ := definitionIn_some hdef
    exact ⟨d, hd, j, _, _, hj, hdef, .inr ⟨by rw [h.1], h.2⟩⟩
  · cases h

lemma counterPosition_some (h : counterPosition f lp iv = some pos) :
    f.DefinedAt iv (.param lp.header pos) := by
  obtain ⟨hlt, hp, -⟩ := findIdx?_eq_some_iff_getElem.1 h
  exact ⟨_, getElem?_eq_getElem hlt, by simpa using hp⟩

lemma counter_not_def (hssa : f.Ssa) (h : counterPosition f lp iv = some pos) (b : BlockId) :
    ∀ s ∈ f.blockStmts b, s.def? ≠ some iv := by
  intro s hs hdef
  obtain ⟨k, hk⟩ := getElem?_of_mem hs
  obtain ⟨id, hid, -⟩ := stmt_of_blockStmts hk
  have := hssa.single (counterPosition_some h) (definedAt_stmt hid hk hdef)
  cases this

lemma counter_not_param (hssa : f.Ssa)
    (h : counterPosition f lp iv = some pos) {i : Nat} {p : BlockParam}
    (hp : (f.blockParamsOf b)[i]? = some p) (hid : p.id = iv) : b = lp.header ∧ i = pos := by
  have hdefined : f.DefinedAt iv (.param b i) := ⟨p, hp, hid⟩
  have hsame := hssa.single (counterPosition_some h) hdefined
  cases hsame
  exact ⟨rfl, rfl⟩

lemma intShape_of_isIntegerType {ptrBits : Nat} {ty : ArType} (h : isIntegerType ty = true) :
    ∃ s, (ty.scalarKind ptrBits).intShape? = some s := by
  unfold isIntegerType at h
  split at h
  next p => cases p <;> first | exact ⟨_, rfl⟩ | cases h
  · cases h

lemma TempsFit.int (h : TempsFit E f st) (htmp : f.temps[t]? = some tmp)
    (hs : (E.kind tmp.ty).intShape? = some s) (hv : st.temps t = some v) :
    ∃ n, v = .int n ∧ s.wrap n = n := by
  obtain ⟨tmp', htmp', w, hw⟩ := h t v hv
  cases htmp.symm.trans htmp'
  obtain ⟨n, rfl⟩ := E.host.conform_intShape hs hw
  exact ⟨_, rfl, s.wrap_wrap n⟩

lemma conform_of_wrap {ty : TypeId} (hs : (E.kind ty).intShape? = some s)
    (hn : s.wrap n = n) (h : E.conform ty (.int n) = .ok w) : w = .int n := by
  unfold Env.conform at h
  cases hk : E.kind ty with
  | int s' | ptrInt s' =>
    rw [hk] at hs h
    cases hs
    cases h
    rw [hn]
  | _ =>
    rw [hk] at hs
    cases hs

/-! ## The test and the step -/

lemma reachesStmt_end (hreach : ReachesBlock E f st₀ b st)
    (hrun : runStmts E f (f.blockStmts b) st = .ok st₁) :
    ReachesStmt E f st₀ b (f.blockStmts b).length st₁ :=
  ⟨st, hreach, by rwa [take_length]⟩

variable {c : TempId} {ifTrue : BlockId} {trueArgs : List AmirOperand} {bound : AmirOperand}
  {pos : Nat}

include h in
/-- The header's test compares the counter with a number of the counter's type. -/
lemma SkippedRun.test
    (hcounted : CountedBy E.interner E.pool f lp exit args c ifTrue trueArgs iv bound pos)
    (htmp : f.temps[iv]? = some tmp) (hs : (E.kind tmp.ty).intShape? = some s)
    (hreach : ReachesStmt E f st₀ lp.header (f.blockStmts lp.header).length st)
    (hn : st.temps iv = some (.int n)) : ∃ m w, s.wrap m = m ∧ st.temps c = some w ∧
      ∀ b, w = .bool b → b = decide (n < m) := by
  obtain ⟨j, op, x, y, hj, hop⟩ := headerTest_some hcounted.test
  have hiv : evalOperand E st (.copy iv) = .ok (.int n) := (evalOperand_temp rfl).2 hn
  have hbound := (h.safe.counter c iv bound tmp s hcounted.test htmp hs).bound st
  obtain ⟨_, raw, p, q, w, -, hw, hp, hq, hraw, hconform⟩ := computed_binary h.wf h.ssa hj hreach
    (.inl ⟨rfl, lt_of_getElem? hj⟩)
  rcases hop with ⟨rfl, rfl, rfl⟩ | ⟨rfl, rfl, rfl⟩
  · obtain rfl : .int n = p := Except.ok.inj (hiv.symm.trans hp)
    obtain ⟨m, rfl, hm⟩ := hbound q hreach hq
    cases hraw
    refine ⟨m, w, hm, hw, fun b hwb => ?_⟩
    subst hwb
    exact E.host.conform_bool hconform
  · obtain rfl : .int n = q := Except.ok.inj (hiv.symm.trans hq)
    obtain ⟨m, rfl, hm⟩ := hbound p hreach hp
    cases hraw
    refine ⟨m, w, hm, hw, fun b hwb => ?_⟩
    subst hwb
    simpa using E.host.conform_bool hconform

include h in
lemma SkippedRun.one (hs : (E.kind tmp.ty).intShape? = some s) (hone : s.wrap 1 = 1)
    {op : AmirOperand} (hop : isOne E.pool f op = true)
    (hty : ∀ t, op.temp? = some t → operandTy? f op = some tmp.ty)
    (hreach : ReachesStmt E f st₀ b k st) (hsettled : ∀ t, op.temp? = some t → f.Settled t b k)
    (hv : evalOperand E st op = .ok v) : v = .int 1 := by
  have hconst : ∀ c, isOneConstant E.pool c = true → constValue E c = .ok (.int 1) := by
    intro c hc
    unfold isOneConstant at hc
    split at hc
    next id =>
      split at hc
      next text hget =>
        have hparse : parseIntLiteral text = some 1 := by simpa using hc
        simp only [constValue, hget, hparse]
      · cases hc
    · cases hc
  unfold isOne at hop
  split at hop
  next c =>
    have := hconst c hop
    rw [evalOperand, this] at hv
    cases hv
    rfl
  next t =>
    split at hop
    next c hdef =>
      -- the temp was assigned the literal, converted to its own type
      obtain ⟨d, -, j, hj⟩ := definitionIn_some hdef
      obtain ⟨id, hid, hget⟩ := mem_stmts_of_blockStmts hj rfl
      obtain ⟨d', j', hj', hafter⟩ := (hsettled t rfl).position hget rfl
      obtain ⟨vals, w, hvals, hw, hR⟩ := h.ssa.available h.wf hj' rfl
        (R := fun _ w => ∃ tmp', f.temps[t]? = some tmp' ∧
          convert E f tmp' (.constant c) (.int 1) = .ok w)
        (fun st st' vals w _ hvals hexec hw => by
          obtain ⟨tmp', v, heap, htmp, hrv, hassign⟩ := execStmt_assign_ok hvals hexec hw
          obtain ⟨v', hv', rfl⟩ := evalOperands_singleton.1 hvals
          rw [evalOperand, hconst c hop] at hv'
          cases hv'
          cases hrv
          exact ⟨tmp', htmp, hassign⟩) hreach hafter
      obtain ⟨tmp', htmp', hconvert⟩ := hR
      have hsame : tmp'.ty = tmp.ty := by
        have := hty t rfl
        rw [operandTy?, temp?, bind_some, htmp'] at this
        exact some.inj this
      have hv' : w = v := by
        have htemp : st.temps t = some v := (evalOperand_temp rfl).1 hv
        exact some.inj (hw.symm.trans htemp)
      subst hv'
      simp only [convert, operandTy?, temp?, bind_none, reduceCtorEq, if_false] at hconvert
      rw [if_neg] at hconvert
      · exact conform_of_wrap (hsame ▸ hs) hone hconvert
      · intro hother
        rw [hsame] at hother
        rw [hother.2] at hs
        cases hs
    · cases hop
  · cases hop

/-! ## One iteration -/

section Iterations

lemma latchNext_some {next : TempId} (h : latchNext f lp pos b = some next) :
    ∃ args', (f.block b).terminator = .goto lp.header args' ∧ args'[pos]? = some (.copy next) := by
  unfold latchNext at h
  split at h
  next target args' hterm =>
    split at h
    next htarget =>
      obtain rfl : target = lp.header := by simpa using htarget
      split at h
      next next' hget =>
        cases h
        exact ⟨args', hterm, hget⟩
      · cases h
    · cases h
  · cases h

variable (hcounted : CountedBy E.interner E.pool f lp exit args c ifTrue trueArgs iv bound pos)
include h hcounted

lemma SkippedRun.enter {b' : BlockId} {args' : List AmirOperand}
    (hedge : (b', args') ∈ (f.block b).terminator.edges) (hb' : b' ∈ lp.body)
    (hne : b' ≠ lp.header) (htook : TookEdge E f st args' b' st') :
    st'.temps iv = st.temps iv ∧ InnerEdge f.successors (leavesIteration lp) b' b := by
  constructor
  · refine htook.temps fun hmem => ?_
    obtain ⟨p, hp, hid⟩ := mem_map.1 hmem
    obtain ⟨i, hi⟩ := getElem?_of_mem hp
    exact hne (counter_not_param h.ssa hcounted.param hi hid).1
  · refine ⟨h.cfg.covers b b' (mem_targets_of_mem_edges hedge), ?_⟩
    simp [leavesIteration, hne, hb']

variable (htmp : f.temps[iv]? = some tmp) (hs : (E.kind tmp.ty).intShape? = some s)
include htmp hs

lemma SkippedRun.next (hreach : ReachesStmt E f st₀ b (f.blockStmts b).length st) {next : TempId}
    (hlatch : latchNext f lp pos b = some next) (hnext : isSuccessor E.pool f lp iv next = true)
    (hn : st.temps iv = some (.int n)) (hfit : s.wrap (n + 1) = n + 1) :
    st.temps next = some (.int (n + 1)) := by
  obtain ⟨args', hterm, hget⟩ := latchNext_some hlatch
  obtain ⟨d, -, j, x, y, hj, hdef, hxy⟩ := isSuccessor_some hnext
  have htyped := h.safe.counter c iv bound tmp s hcounted.test htmp hs
  obtain ⟨hnextTy, hoperandTy⟩ := htyped.next b pos next hcounted.param hlatch
  -- the addition precedes the end of the latch
  have hb : Reachable f.Edge 0 b := hreach.reachable
  have hsettled : f.Settled next b (f.blockStmts b).length := by
    refine h.ssa.settled_use hb (.inr ⟨rfl, mem_operandTemps.2 ⟨.copy next, ?_, rfl⟩⟩)
    rw [hterm]
    exact mem_of_getElem? hget
  obtain ⟨id, -, hid⟩ := mem_stmts_of_blockStmts hj rfl
  obtain ⟨d', j', hj', hafter⟩ := hsettled.position hid rfl
  obtain ⟨tmpn, raw, p, q, w, htmpn, hw, hp, hq, hraw, hconform⟩ :=
    computed_binary h.wf h.ssa hj' hreach hafter
  have hiv : evalOperand E st (.copy iv) = .ok (.int n) := (evalOperand_temp rfl).2 hn
  have hunit : ∀ op ∈ [x, y], isOne E.pool f op = true → ∀ v, evalOperand E st op = .ok v →
      v = .int 1 := by
    intro op hop hone v hv
    refine h.one hs htyped.one hone (hoperandTy x y hdef op hop) hreach (fun t ht => ?_) hv
    exact h.ssa.settled_operand hb hj' (mem_operandTemps.2 ⟨op, hop, ht⟩) hafter
  have hsum : raw = .int (n + 1) := by
    rcases hxy with ⟨rfl, hone⟩ | ⟨rfl, hone⟩
    · obtain rfl : .int n = p := Except.ok.inj (hiv.symm.trans hp)
      obtain rfl := hunit y (by simp) hone q hq
      cases hraw
      rfl
    · obtain rfl : .int n = q := Except.ok.inj (hiv.symm.trans hq)
      obtain rfl := hunit x (by simp) hone p hp
      cases hraw
      rw [Int.add_comm]
  subst hsum
  have hsame : tmpn.ty = tmp.ty := by
    rw [operandTy?, temp?, bind_some, htmpn] at hnextTy
    exact some.inj hnextTy
  rw [hw, conform_of_wrap (hsame ▸ hs) hfit hconform]

lemma SkippedRun.advance (hb : b ∈ lp.body)
    (hreach : ReachesStmt E f st₀ b (f.blockStmts b).length st) {args' : List AmirOperand}
    (hedge : (lp.header, args') ∈ (f.block b).terminator.edges)
    (htook : TookEdge E f st args' lp.header st') (hn : st.temps iv = some (.int n))
    (hfit : s.wrap (n + 1) = n + 1) : st'.temps iv = some (.int (n + 1)) := by
  obtain ⟨next, hlatch, hnext⟩ :=
    hcounted.latch b hb (mem_targets_of_mem_edges hedge)
  have hvalue := h.next hcounted htmp hs hreach hlatch hnext hn hfit
  have htyped := h.safe.counter c iv bound tmp s hcounted.test htmp hs
  obtain ⟨hnextTy, -⟩ := htyped.next b pos next hcounted.param hlatch
  obtain ⟨args'', hterm, hget⟩ := latchNext_some hlatch
  rw [hterm] at hedge
  obtain ⟨-, rfl⟩ := Prod.mk.inj (mem_singleton.1 hedge)
  obtain ⟨heap, as, has, rfl⟩ := htook
  obtain ⟨q, hq, hid⟩ := counterPosition_some hcounted.param
  have hkey : iv ∈ as.map Prod.fst := by
    rw [paramValues_keys has]
    exact mem_map.2 ⟨q, mem_of_getElem? hq, hid⟩
  obtain ⟨w, hw, hmem⟩ := setParams_temps_mem { st with heap := heap } hkey
  obtain ⟨i, p, op, tmp', v, hp, hop, hpid, htmp', hv, hconvert⟩ := paramValues_mem has hmem
  obtain ⟨-, rfl⟩ := counter_not_param h.ssa hcounted.param hp hpid.symm
  obtain rfl : .copy next = op := some.inj (hget.symm.trans hop)
  have hpid' : iv = p.id := hpid
  obtain rfl : tmp = tmp' := by
    rw [← hpid', htmp] at htmp'
    exact some.inj htmp'
  have hval : v = .int (n + 1) := by
    have := (evalOperand_temp rfl).1 hv
    exact some.inj (this.symm.trans hvalue)
  unfold convert at hconvert
  rw [if_pos hnextTy] at hconvert
  have hkept : v = w := Except.ok.inj hconvert
  rw [hw, ← hkept, hval]

/-- From a block inside the iteration the run comes back to the header. -/
lemma SkippedRun.inner (hfit : s.wrap (n + 1) = n + 1)
    (hacc : Acc (InnerEdge f.successors (leavesIteration lp)) b) (hb : b ∈ lp.body)
    (hne : b ≠ lp.header) (hreach : ReachesBlock E f st₀ b st) (hn : st.temps iv = some (.int n)) :
    ∃ m st', runN E f m (.running b st) = .running lp.header st' ∧ Skips E f removable lp st st' ∧
      st'.temps iv = some (.int (n + 1)) := by
  induction hacc generalizing st with
  | intro b _ ih =>
    obtain ⟨st₁, hrun, hskips⟩ := h.runStmts_body hb hreach
    have hend := reachesStmt_end hreach hrun
    have hn₁ : st₁.temps iv = some (.int n) := by
      rw [runStmts_temps hrun (counter_not_def h.ssa hcounted.param b), hn]
    have hstep : step E f (.running b st) = execTerminator E f st₁ (f.block b).terminator := by
      rw [step, hrun]
    -- the terminator is a goto or a branch, so it takes an edge in the state it finds
    obtain ⟨b', args', hedge, hb', hjump⟩ : ∃ b' args', (b', args') ∈ (f.block b).terminator.edges ∧
        b' ∈ lp.body ∧ execTerminator E f st₁ (f.block b).terminator = jump E f st₁ b' args' := by
      have hstays := h.dead.stays b hb hne
      have hstuck := h.step_not_stuck hreach
      rw [hstep] at hstuck
      cases hterm : (f.block b).terminator with
      | goto t targs =>
        rw [hterm] at hstays
        exact ⟨t, targs, mem_singleton.2 rfl, by simpa [staysInside] using hstays, rfl⟩
      | branch cond t ta e fa =>
        rw [hterm] at hstays hstuck
        simp only [staysInside, Bool.and_eq_true, contains_iff_mem] at hstays
        simp only [execTerminator] at hstuck ⊢
        cases hc : evalOperand E st₁ cond with
        | error why =>
          obtain rfl := evalOperand_error hc
          rw [hc] at hstuck
          exact absurd trivial hstuck
        | ok v =>
          rw [hc] at hstuck
          cases v with
          | bool v =>
            cases v with
            | true => exact ⟨t, ta, by simp [edges], hstays.1, rfl⟩
            | false => exact ⟨e, fa, by simp [edges], hstays.2, rfl⟩
          | _ => exact absurd trivial hstuck
      | _ =>
        rw [hterm] at hstays
        cases hstays
    have hmeaning : ¬ (jump E f { st₁ with heap := st₁.heap } b' args').isStuck := by
      have hstuck := h.step_not_stuck hreach
      rwa [hstep, hjump] at hstuck
    obtain ⟨st₂, hjump₂, hskips₂, htook⟩ := h.jump_body hend hedge hb' st₁.heap hmeaning
    have hstep₂ : step E f (.running b st) = .running b' st₂ := by
      rw [hstep, hjump]
      exact hjump₂
    have hskips' : Skips E f removable lp st st₂ := Agree.trans hskips hskips₂
    by_cases hheader : b' = lp.header
    · subst hheader
      exact ⟨1, st₂, hstep₂, hskips', h.advance hcounted htmp hs hb hend hedge htook hn₁ hfit⟩
    obtain ⟨hn₂, hinner⟩ := h.enter hcounted hedge hb' hheader htook
    obtain ⟨m, st', hm, hskips'', hn'⟩ :=
      ih b' hinner hb' hheader (hreach.step hstep₂) (hn₂.trans hn₁)
    refine ⟨m + 1, st', ?_, Agree.trans hskips' hskips'', hn'⟩
    rw [runN_succ_apply, hstep₂, hm]

end Iterations

/-! ## All iterations -/

lemma param_assigned (hb : b ≠ 0) (hreach : ReachesBlock E f st₀ b st)
    (ht : t ∈ (f.blockParamsOf b).map BlockParam.id) : ∃ v, st.temps t = some v := by
  obtain ⟨n, hn⟩ := hreach
  cases n with
  | zero =>
    cases hn
    exact absurd rfl hb
  | succ n =>
    rw [runN_succ] at hn
    cases hc : runN E f n (.running 0 st₀) with
    | halted o st' =>
      rw [hc] at hn
      cases hn
    | running b' st' =>
      rw [hc] at hn
      obtain ⟨st₁, args', -, -, -, heap, as, has, rfl⟩ := step_running hn
      rw [← paramValues_keys has] at ht
      obtain ⟨v, hv, -⟩ := setParams_temps_mem { st₁ with heap := heap } ht
      exact ⟨v, hv⟩

include h in
/-- However the loop is entered, it is left through the exit edge of its header. -/
lemma SkippedRun.leavesLoop (hreach : ReachesBlock E f st₀ lp.header st) :
    ∃ m st₁, 1 ≤ m ∧ runN E f m (.running lp.header st) = jump E f st₁ exit args ∧
      Skips E f removable lp st st₁ := by
  obtain ⟨c, ifTrue, trueArgs, iv, bound, pos, hcounted⟩ := h.dead.counted
  obtain ⟨tmp, htmp, hinteger⟩ := hcounted.integer
  obtain ⟨s, hs⟩ : ∃ s, (E.kind tmp.ty).intShape? = some s := intShape_of_isIntegerType hinteger
  obtain ⟨p, hp, hpid⟩ := counterPosition_some hcounted.param
  -- the distance of the counter to the end of its type falls with every iteration
  have key : ∀ (k : Nat) (st : State E.host) (n : Int), ReachesBlock E f st₀ lp.header st →
      st.temps iv = some (.int n) → (s.modulus - n).toNat ≤ k →
      ∃ m st₁, 1 ≤ m ∧ runN E f m (.running lp.header st) = jump E f st₁ exit args ∧
        Skips E f removable lp st st₁ := by
    intro k
    induction k with
    | zero =>
      intro st n hreach hn hk
      obtain ⟨n', heq, hwrap⟩ := TempsFit.int (hreach.tempsFit h.init) htmp hs hn
      cases heq
      have := (s.wrap_bounds n).2
      omega
    | succ k ih =>
      intro st n hreach hn hk
      obtain ⟨n', heq, hwrap⟩ := TempsFit.int (hreach.tempsFit h.init) htmp hs hn
      cases heq
      obtain ⟨st₁, hrun, hskips⟩ := h.runStmts_body h.loop.header hreach
      have hend := reachesStmt_end hreach hrun
      have hn₁ : st₁.temps iv = some (.int n) := by
        rw [runStmts_temps hrun (counter_not_def h.ssa hcounted.param _), hn]
      obtain ⟨m, w, hm, hw, htest⟩ := h.test hcounted htmp hs hend hn₁
      have hc : evalOperand E st₁ (.copy c) = .ok w := (evalOperand_temp rfl).2 hw
      have hstep : step E f (.running lp.header st) =
          execTerminator E f st₁ (.branch (.copy c) ifTrue trueArgs exit args) := by
        rw [step, hrun, ← hcounted.header]
      have hstuck := h.step_not_stuck hreach
      rw [hstep] at hstuck
      simp only [execTerminator, hc] at hstep hstuck
      cases w with
      | bool v =>
        obtain rfl := htest v rfl
        by_cases hlt : n < m
        · rw [decide_eq_true hlt] at hstep hstuck
          have hedge : (ifTrue, trueArgs) ∈ (f.block lp.header).terminator.edges := by
            rw [hcounted.header]
            simp [edges]
          have hne : ifTrue ≠ lp.header := by
            -- the header ends in a branch, so it is no latch
            intro heq
            obtain ⟨next, hlatch, -⟩ := hcounted.latch lp.header h.loop.header
              (mem_targets_of_mem_edges (heq ▸ hedge))
            obtain ⟨args', hterm, -⟩ := latchNext_some hlatch
            rw [hcounted.header] at hterm
            cases hterm
          obtain ⟨st₂, hjump₂, hskips₂, htook⟩ :=
            h.jump_body hend hedge hcounted.inside st₁.heap hstuck
          have hstep₂ := hstep.trans hjump₂
          obtain ⟨hn₂, hinner⟩ := h.enter hcounted hedge hcounted.inside hne htook
          have hfit : s.wrap (n + 1) = n + 1 :=
            s.wrap_eq_self_of_between hwrap hm (by omega) (by omega)
          obtain ⟨j, st₃, hj, hskips₃, hn₃⟩ := h.inner hcounted htmp hs hfit
            (h.dead.acyclic.inv hinner) hcounted.inside hne (hreach.step hstep₂) (hn₂.trans hn₁)
          have hreach₃ : ReachesBlock E f st₀ lp.header st₃ := by
            obtain ⟨i, hi⟩ := hreach.step hstep₂
            exact ⟨j + i, by rw [runN_add, hi, hj]⟩
          obtain ⟨i, st₄, hi, hjump₄, hskips₄⟩ := ih st₃ (n + 1) hreach₃ hn₃ (by omega)
          refine ⟨i + (j + 1), st₄, by omega, ?_,
            Agree.trans (Agree.trans (Agree.trans hskips hskips₂) hskips₃) hskips₄⟩
          rw [runN_add, runN_succ_apply, hstep₂, hj, hjump₄]
        · rw [decide_eq_false hlt] at hstep
          exact ⟨1, st₁, Nat.le_refl 1, hstep, hskips⟩
      | _ => exact absurd trivial hstuck
  obtain ⟨v, hv⟩ := param_assigned h.loop.notEntry hreach (mem_map.2 ⟨p, mem_of_getElem? hp, hpid⟩)
  obtain ⟨n, rfl, -⟩ := TempsFit.int (hreach.tempsFit h.init) htmp hs hv
  exact key _ st n hreach hv le_rfl

/-! ## The function without the loop -/

section Skip

lemma skipLoop_block (b : BlockId) : (skipLoop f lp exit args).block b = { f.block b with
        terminator := skippedTerminator lp exit args b (f.block b).terminator } := by
  by_cases hb : b < f.blocks.length
  · have hb' : b < (skipLoop f lp exit args).blocks.length := by simpa [skipLoop] using hb
    rw [block_eq_getElem hb, block_eq_getElem hb']
    simp [skipLoop]
  · have hge := not_lt.1 hb
    have hge' : (skipLoop f lp exit args).blocks.length ≤ b := by simpa [skipLoop] using hge
    rw [block_of_length_le hge, block_of_length_le hge']
    simp [AmirBasicBlock.missing, skippedTerminator, retarget]

lemma skipLoop_terminator (b : BlockId) : ((skipLoop f lp exit args).block b).terminator =
    skippedTerminator lp exit args b (f.block b).terminator := by
  rw [skipLoop_block]

lemma skipLoop_blockStmts (b : BlockId) :
    (skipLoop f lp exit args).blockStmts b = f.blockStmts b := by
  simp only [AmirFunc.blockStmts, AmirFunc.blockStmtIds, skipLoop_block]
  rfl

lemma skipLoop_blockParamsOf (b : BlockId) :
    (skipLoop f lp exit args).blockParamsOf b = f.blockParamsOf b := by
  simp only [AmirFunc.blockParamsOf, skipLoop_block]
  rfl

/-- What a terminator does before and after its edges to the header are redirected. -/
inductive Redirected (E : Env) (f : AmirFunc) (R : State E.host → State E.host → Prop)
    (header exit : BlockId) (args : List AmirOperand) (term : AmirTerminator) (st : State E.host) :
    Config E.host → Config E.host → Prop
  | same {c c' : Config E.host} (h : Rel R c c')
      (hnot : ∀ b st', c = .running b st' → b ≠ header) :
      Redirected E f R header exit args term st c c'
  | skips (heap : E.host.Heap) {st' : State E.host} {hargs : List AmirOperand}
      (hedge : (header, hargs) ∈ term.edges) (h : R { st with heap := heap } st') :
      Redirected E f R header exit args term st (jump E f { st with heap := heap } header hargs)
        (jump E f st' exit args)

variable {needed : TempId → Prop} {kept : LocalId → Prop} {visible : AmirStmt → Bool}
  {st' : State E.host}

lemma redirected_jump {header : BlockId} {term : AmirTerminator} (heap : E.host.Heap)
    (h : Agree needed kept visible { st with heap := heap } st')
    {bargs : List AmirOperand} (hedge : (b, bargs) ∈ term.edges)
    (hops : ∀ t ∈ operandTemps term.operands, needed t) :
    Redirected E f (Agree needed kept visible) header exit args term st
      (jump E f { st with heap := heap } b bargs)
      (jump E f st' (redirectEdge header exit args (b, bargs)).1
        (redirectEdge header exit args (b, bargs)).2) := by
  unfold redirectEdge
  split
  next heq =>
    obtain rfl : b = header := heq
    exact .skips heap hedge h
  next hne =>
    have hargs : ∀ t ∈ operandTemps bargs, needed t := by
      intro t ht
      obtain ⟨op, hop, hot⟩ := mem_operandTemps.1 ht
      exact hops t (mem_operandTemps.2 ⟨op, mem_operands_of_mem_edges hedge hop, hot⟩)
    refine .same (h.jump hargs b) fun b' st'' hrun => ?_
    rw [(jump_running.1 hrun).1]
    exact hne

lemma redirected_retarget (h : Agree needed kept visible st st') (term : AmirTerminator)
    (hops : ∀ t ∈ operandTemps term.operands, needed t) (hreturn : needed 0) (header : BlockId) :
    Redirected E f (Agree needed kept visible) header exit args term st
      (execTerminator E f st term) (execTerminator E f st' (retarget header exit args term)) := by
  have hop : ∀ op ∈ term.operands, evalOperand E st' op = evalOperand E st op :=
    fun op hop => h.evalOperand fun t ht => hops t (mem_operandTemps.2 ⟨op, hop, ht⟩)
  exact execTerminator_rel hop h.heap (fun _ => h.temps 0 hreturn)
    (fun o => .same (.halted o h) nofun)
    fun heap e he => redirected_jump heap (h.withHeap heap) he hops

end Skip

/-! ## Both functions side by side -/

/-- The original is outside the loop, or has halted, and the shorter function is in step. -/
inductive OutsideRel (E : Env) (f : AmirFunc) (removable : List SymbolId) (lp : LoopInfo) :
    Config E.host → Config E.host → Prop
  | running {b : BlockId} {st st' : State E.host} (hb : b ∉ lp.body)
      (h : Skips E f removable lp st st') :
      OutsideRel E f removable lp (.running b st) (.running b st')
  | halted (o : Outcome E.host) {st st' : State E.host} (h : Skips E f removable lp st st') :
      OutsideRel E f removable lp (.halted o st) (.halted o st')

lemma OutsideRel.of_rel {c c' : Config E.host} (h : Rel (Skips E f removable lp) c c')
    (houtside : ∀ b st, c = .running b st → b ∉ lp.body) : OutsideRel E f removable lp c c' := by
  cases h with
  | running b hskips => exact .running (houtside b _ rfl) hskips
  | halted o hskips => exact .halted o hskips

lemma OutsideRel.rel {c c' : Config E.host} (h : OutsideRel E f removable lp c c') :
    Rel (Skips E f removable lp) c c' := by
  cases h with
  | running _ hskips => exact .running _ hskips
  | halted o hskips => exact .halted o hskips

include h in
lemma SkippedRun.passLoop (hreach : ReachesBlock E f st₀ lp.preheader st)
    (hrun : runStmts E f (f.blockStmts lp.preheader) st = .ok st₁) {hargs : List AmirOperand}
    (hedge : (lp.header, hargs) ∈ (f.block lp.preheader).terminator.edges) {heap : E.host.Heap}
    (hstep : step E f (.running lp.preheader st) =
      jump E f { st₁ with heap := heap } lp.header hargs)
    (hskips : Skips E f removable lp { st₁ with heap := heap } st') :
    ∃ k, 1 ≤ k ∧ OutsideRel E f removable lp (runN E f k (.running lp.preheader st))
      (jump E f st' exit args) := by
  have hmeaning := hstep ▸ h.step_not_stuck hreach
  obtain ⟨sth, hjump, hentered, -⟩ :=
    h.jump_body (reachesStmt_end hreach hrun) hedge h.loop.header heap hmeaning
  have hheader : ReachesBlock E f st₀ lp.header sth := by
    obtain ⟨n, hn⟩ := hreach
    exact ⟨n + 1, by rw [runN_succ, hn, hstep, hjump]⟩
  obtain ⟨m, st₂, -, hleft, hpassed⟩ := h.leavesLoop hheader
  refine ⟨m + 1, Nat.le_add_left 1 m, ?_⟩
  rw [runN_succ_apply, hstep, hjump, hleft]
  have hagree : Skips E f removable lp st₂ st' :=
    Agree.trans (Agree.symm (Agree.trans hentered hpassed)) hskips
  refine .of_rel (hagree.jump (fun t ht => (h.dead.passes t ht).not_mem_definedIn) exit) ?_
  intro b st hrunning
  rw [(jump_running.1 hrunning).1]
  exact h.dead.leaves

lemma skipLoop_step (b : BlockId) (st : State E.host) :
    step E (skipLoop f lp exit args) (.running b st) =
      match runStmts E f (f.blockStmts b) st with
      | .ok st' =>
        execTerminator E f st' (skippedTerminator lp exit args b (f.block b).terminator)
      | .error (why, st') => .halted (.stopped why) st' := by
  have htemps : (skipLoop f lp exit args).temps = f.temps := rfl
  rw [step, skipLoop_blockStmts, runStmts_congr htemps, skipLoop_terminator]
  cases runStmts E f (f.blockStmts b) st with
  | ok st' => exact execTerminator_congr htemps skipLoop_blockParamsOf _ _
  | error e => rfl

include h in
lemma SkippedRun.step (hreach : ReachesBlock E f st₀ b st) (hb : b ∉ lp.body)
    (hskips : Skips E f removable lp st st') :
    ∃ k, 1 ≤ k ∧ OutsideRel E f removable lp (runN E f k (.running b st))
      (step E (skipLoop f lp exit args) (.running b st')) := by
  have hlocal : ∀ s ∈ f.blockStmts b, ∀ l, s.localId? = some l → ¬ StorageMarked f lp l :=
    fun s hs l hl hmarked => (h.safe.storage l hmarked).2 b hb s hs hl
  have hruns := hskips.runStmts (f := f) (h.dead.stmts b hb) hlocal
  rw [skipLoop_step]
  have hone : runN E f 1 (.running b st) = Amir.step E f (.running b st) := rfl
  generalize hrun' : runStmts E f (f.blockStmts b) st' = r' at hruns ⊢
  cases hrun : runStmts E f (f.blockStmts b) st with
  | error e =>
    rw [hrun] at hruns
    cases hruns with
    | error why hs =>
      refine ⟨1, Nat.le_refl 1, ?_⟩
      rw [hone, Amir.step, hrun]
      exact .halted _ hs
  | ok st₁ =>
    have hstep : Amir.step E f (.running b st) =
        execTerminator E f st₁ (f.block b).terminator := by
      rw [Amir.step, hrun]
    have hmove : ∀ b' st₂, execTerminator E f st₁ (f.block b).terminator = .running b' st₂ →
        f.Edge b b' := by
      intro b' st₂ hterm
      exact step_edge (hstep.trans hterm)
    rw [hrun] at hruns
    cases hruns with
    | ok hs =>
      next st₁' =>
      have hops := h.dead.terminators b hb
      unfold skippedTerminator
      rw [if_neg hb]
      by_cases hpre : b = lp.preheader
      · -- the only block whose terminator changed
        subst hpre
        rw [if_pos rfl]
        have hredirected : Redirected E f (Skips E f removable lp) lp.header exit args _ _ _ _ :=
          redirected_retarget hs (f.block lp.preheader).terminator hops h.safe.register lp.header
        show ∃ k, 1 ≤ k ∧ OutsideRel E f removable lp _ (execTerminator E f st₁' _)
        generalize hc : execTerminator E f st₁ (f.block lp.preheader).terminator = c at hredirected
        generalize execTerminator E f st₁' (retarget lp.header exit args
          (f.block lp.preheader).terminator) = c' at hredirected ⊢
        cases hredirected with
        | same hrel hnot =>
          refine ⟨1, Nat.le_refl 1, ?_⟩
          rw [hone, hstep, hc]
          refine .of_rel hrel fun b' st₂ hrunning hmem => hb ?_
          exact h.loop.closed _ b' hmem (hnot b' st₂ hrunning) (hmove b' st₂ (hc.trans hrunning))
        | skips heap hedge hagree =>
          exact h.passLoop hreach hrun hedge (hstep.trans hc) hagree
      · rw [if_neg hpre]
        refine ⟨1, Nat.le_refl 1, ?_⟩
        rw [hone, hstep]
        refine .of_rel (hs.execTerminator hops fun _ => h.safe.register) ?_
        intro b' st₂ hrunning hmem
        have hedge := hmove b' st₂ hrunning
        by_cases hheader : b' = lp.header
        · subst hheader
          rcases h.loop.enters b hedge with hin | hin
          · exact hb hin
          · exact hpre hin
        · exact hb (h.loop.closed b b' hmem hheader hedge)

include h in
lemma SkippedRun.accelerates
    (hentry : 0 ∉ lp.body) : Accelerates (Config.Rel (Skips E f removable lp)) (Amir.step E f)
      (Amir.step E (skipLoop f lp exit args)) (.running 0 st₀) (.running 0 st₀) := by
  -- the original has got where it is by running
  refine .of_invariant (I := fun c d => (∃ n, runN E f n (.running 0 st₀) = c) ∧
    OutsideRel E f removable lp c d) (fun c d hI => hI.2.rel) ?_
    ⟨⟨0, rfl⟩, .running hentry (.refl st₀)⟩
  rintro c d ⟨⟨n, hn⟩, hrel⟩
  have hlater : ∀ k, ∃ n, runN E f n (.running 0 st₀) = (Amir.step E f)^[k] c := by
    intro k
    refine ⟨k + n, ?_⟩
    rw [← hn, runN, runN, Function.iterate_add_apply]
  cases hrel with
  | running hb hskips =>
    obtain ⟨k, hk, hnext⟩ := h.step ⟨n, hn⟩ hb hskips
    exact ⟨k, hk, hlater k, hnext⟩
  | halted o hskips => exact ⟨1, Nat.le_refl 1, hlater 1, .halted o hskips⟩

/-! ## The pass -/

/-- `i32`, `bool`; literals `0`, `1`. -/
def countEnv : Env where
  interner := ⟨[.primitive .i32, .primitive .bool]⟩
  pool := ⟨[.int ['0'], .int ['1']]⟩
  host := Host.lengths
  frame := fun _ => false

/-- `before = 0; for i in 0..1 { inside = i }; return`. -/
def countedLoop (before inside : TempId) : AmirFunc :=
  let blocks : List AmirBasicBlock :=
    [ ⟨0, .empty, ⟨0, 1⟩, .goto 1 [.constant (.pool 0)]⟩,
      ⟨1, ⟨0, 1⟩, ⟨1, 1⟩, .branch (.copy 2) 2 [] 3 []⟩,
      ⟨2, .empty, ⟨2, 2⟩, .goto 1 [.copy 3]⟩,
      ⟨3, .empty, .empty, .return⟩ ]
  { symbol := 0, returnType := 0, receiver := none, params := [], locals := []
    temps := [⟨0, 0, true, false⟩, ⟨1, 0, true, false⟩, ⟨2, 1, true, false⟩, ⟨3, 0, true, false⟩,
      ⟨4, 0, true, false⟩]
    blocks := blocks, blockParams := [⟨1, 0, 0, false⟩]
    stmts := [.assign before (.use (.constant (.pool 0))),
      .assign 2 (.binary .lt (.copy 1) (.constant (.pool 1))),
      .assign inside (.use (.copy 1)),
      .assign 3 (.binary .add (.copy 1) (.constant (.pool 1)))]
    cfg := computeCfgEdges blocks }

def noInputs : State Host.lengths := .ofInputs (h := Host.lengths) (0 : Int) () []

lemma countedLoop_valid (before inside : TempId)
    (h : (before, inside) = (0, 4) ∨ (before, inside) = (4, 0)) :
    validateAmirFunc (countedLoop before inside) countEnv.interner = [] ∧
      (countedLoop before inside).Ssa ∧
      CfgInherited (countedLoop before inside) (countedLoop before inside) := by
  have hvalid : validateAmirFunc (countedLoop before inside) countEnv.interner = [] ∧
      isSsa (countedLoop before inside) = true := by
    rcases h with h | h <;> cases h <;> decide
  have hwf := wellFormed_of_validate hvalid.1
  have hcfg := cfgCovers_of_compute (f := countedLoop before inside) rfl hwf.targets
  exact ⟨hvalid.1, ssa_of_isSsa hcfg hwf.targets hvalid.2,
    cfgInherited_refl hwf (cfgExact_of_compute rfl hwf.targets)⟩

lemma execStmt_of_conversionTraps {s : AmirStmt}
    (hinert : isInert E.interner f removable s = true) (h : ConversionTraps E f st s) :
    execStmt E f st s = .error .trap := by
  unfold execStmt
  match s, h with
  | .assign t rv, ⟨tmp, vals, v, htmp, hvals, hread, htrap⟩ =>
    have heffect := isEffect_of_inert (isInert_assign hinert)
    simp [AmirStmt.operands, hvals, applyStmt, htmp, evalRvalue, heffect, hread, htrap, bind,
      Except.bind]
  | .call (some t) callee args, ⟨tmp, c, vals, v, heap, htmp, hvals, hcall, htrap⟩ =>
    simp [AmirStmt.operands, hvals, applyStmt, hcall, htmp, htrap, bind, Except.bind]

lemma not_conversionTraps {st₀ : State E.host}
    (huntrapped : ∀ n st, runN E f n (.running 0 st₀) ≠ .halted (.stopped .trap) st)
    {s : AmirStmt} (hreach : ReachesStmt E f st₀ b k st)
    (hget : (f.blockStmts b)[k]? = some s) (hinert : isInert E.interner f removable s = true) :
    ¬ ConversionTraps E f st s := by
  intro htraps
  obtain ⟨stb, ⟨n, hn⟩, hrun⟩ := hreach
  have hsplit : f.blockStmts b =
      (f.blockStmts b).take k ++ s :: (f.blockStmts b).drop (k + 1) := by
    obtain ⟨hk, rfl⟩ := List.getElem?_eq_some_iff.1 hget
    simp
  have hall : runStmts E f (f.blockStmts b) stb = .error (.trap, st) := by
    rw [hsplit, runStmts_append, hrun]
    simp [bind, Except.bind, runStmts, execStmt_of_conversionTraps hinert htraps]
  refine huntrapped (n + 1) st ?_
  rw [runN_succ, hn, step, hall]

lemma countedLoop_returns (why : Stop) (n : Nat) (st : State Host.lengths) :
    runN countEnv (countedLoop 0 4) n (.running 0 noInputs) ≠ .halted (.stopped why) st := by
  intro h
  match n, h with
  | 0, h | 1, h | 2, h | 3, h | 4, h => cases h
  | n + 5, h =>
    obtain ⟨o, sth, hhalt⟩ : ∃ o sth, runN countEnv (countedLoop 0 4) 5 (.running 0 noInputs) =
      .halted (.returned o) sth := ⟨_, _, rfl⟩
    rw [runN, Function.iterate_add_apply] at h
    rw [runN] at hhalt
    rw [hhalt, ← runN, runN_halted] at h
    cases h

lemma countedLoop_skipSafe : SkipSafe countEnv (countedLoop 0 4) ⟨0, [1, 2]⟩ noInputs where
  register := by decide
  storage := by
    rintro l ⟨b, hb, hmarked⟩
    have hnone : ∀ b ∈ [1, 2], ∀ s ∈ (countedLoop 0 4).blockStmts b, s.localId? = none := by decide
    rcases hmarked with hmarked | hmarked <;> cases hnone b hb _ hmarked
  stmts := by
    intro b hb k st s hreach hget
    have hinert : ∀ b ∈ [1, 2], ∀ s ∈ (countedLoop 0 4).blockStmts b,
        isInert countEnv.interner (countedLoop 0 4) [] s = true := by decide
    exact not_conversionTraps (countedLoop_returns .trap) hreach hget
      (hinert b hb s (mem_of_getElem? hget))
  edges := by
    intro b b' args st hreach hedge hb'
    rcases b with _ | _ | _ | _ | n
    · obtain ⟨rfl, rfl⟩ := Prod.mk.inj (mem_singleton.1 hedge)
      intro htrap
      cases htrap
    · rcases mem_cons.1 hedge with hedge | hedge
      · obtain ⟨rfl, rfl⟩ := Prod.mk.inj hedge
        intro htrap
        cases htrap
      · obtain ⟨rfl, rfl⟩ := Prod.mk.inj (mem_singleton.1 hedge)
        exact absurd hb' (by decide)
    · obtain ⟨rfl, rfl⟩ := Prod.mk.inj (mem_singleton.1 hedge)
      intro htrap
      obtain ⟨stb, ⟨n, hn⟩, hrun⟩ := hreach
      refine countedLoop_returns .trap (n + 1) st ?_
      have hjump : jump countEnv (countedLoop 0 4) st 1 [.copy 3] =
          .halted (.stopped .trap) st := by
        rw [jump, htrap]
      rw [take_length] at hrun
      rw [runN_succ, hn, step, hrun]
      exact hjump
    · cases hedge
    · cases hedge
  counter := by
    intro condition iv bound tmp s htest htmp hs
    obtain ⟨rfl, rfl⟩ : iv = 1 ∧ bound = .constant (.pool 1) := by
      rcases condition with _ | _ | _ | _ | _ | n <;> cases htest
      exact ⟨rfl, rfl⟩
    cases htmp
    cases hs
    refine ⟨by decide, ?_, ?_⟩
    · intro st v _ hv
      cases hv
      exact ⟨1, rfl, by decide⟩
    intro b pos next hpos hnext
    cases hpos
    rcases b with _ | _ | _ | _ | n <;> cases hnext
    refine ⟨rfl, ?_⟩
    intro x y hdef
    cases hdef
    refine forall_mem_cons.2 ⟨fun t _ => rfl, forall_mem_singleton.2 fun t ht => ?_⟩
    cases ht

end Arandu.Mir
