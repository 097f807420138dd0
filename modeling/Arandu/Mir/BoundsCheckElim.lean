import Arandu.Amir.SsaCheck
import Arandu.Mir.Copies

/-!
# Bounds-check elimination from dominating guards

A fact `lower < upper` holds in every block dominated by the edge of a branch that tested
it. A slice access is proven when such a fact says that its index is below the length of
the very same slice. Values are identified by following single-definition copies to
their root.
-/

namespace Arandu.Mir

open Arandu.Amir Arandu.Library List AmirFunc Option AmirStmt Dominators

/-! ## Values -/

namespace Values

variable (f : AmirFunc) (t : TempId)

def definitionCount : Nat :=
  f.params.count t + (f.blockParams.map BlockParam.id).count t + (f.stmts.filterMap def?).count t

/-- Only single-definition temps carry facts. -/
def single : Bool := definitionCount f t == 1

def assigned : AmirStmt → Option AmirRvalue
  | .assign lhs rhs => if lhs = t then some rhs else none
  | _ => none

/-- The last assignment of the table to `t`. -/
def definition : Option AmirRvalue :=
  (f.stmts.filterMap (assigned t)).getLast?

/-- The temp a plain copy reads. -/
def copySource : Option AmirRvalue → Option TempId
  | some (.use op) => op.temp?
  | _ => none

def rootLoop : Nat → TempId → Option TempId
  | 0, _ => none
  | fuel + 1, current =>
    if single f current then
      match copySource (definition f current) with
      | some source => rootLoop fuel source
      | none => some current
    else none

/-- The value a temp holds, following single-definition copies. -/
def root : Option TempId := rootLoop f (f.temps.length + 1) t

/-- The slice whose length `t` holds. -/
def lenOf : Option TempId :=
  match definition f t with
  | some (.len op) => op.temp?.bind (root f)
  | _ => none

end Values

open Values

section Pass

variable (f : AmirFunc) (interner : TypeInterner)

def isUnsigned (t : TempId) : Bool :=
  match f.temps[t]? with
  | some tmp =>
    match interner.resolve tmp.ty with
    | .primitive p => p.isInteger && !p.isSigned
    | _ => false
  | none => false

def isSlice (t : TempId) : Bool :=
  match f.temps[t]? with
  | some tmp =>
    match interner.resolve tmp.ty with
    | .slice _ | .mutSlice _ => true
    | _ => false
  | none => false

/-! ## Guards -/

/-- `(lower, upper)` meaning `lower < upper`. -/
abbrev Fact := TempId × TempId

/-- `l < r` and `r > l` hold on the true edge; `l >= r` and `r <= l` fail on the false edge. -/
def comparisonFact (op : BinaryOp) (ifTrue ifFalse : BlockId) (left right : TempId) :
    Option (BlockId × Fact) :=
  match op with
  | .lt => some (ifTrue, (left, right))
  | .gt => some (ifTrue, (right, left))
  | .gtEqual => some (ifFalse, (left, right))
  | .ltEqual => some (ifFalse, (right, left))
  | _ => none

/-- The target of a tested comparison and the fact its edge establishes. -/
def guardOf : AmirTerminator → Option (BlockId × Fact)
  | .branch condition ifTrue _ ifFalse _ =>
    condition.temp?.bind fun c =>
      if ifTrue = ifFalse ∨ single f c = false then none
      else match definition f c with
        | some (.binary op l r) =>
          l.temp?.bind fun left => r.temp?.bind fun right =>
            if isUnsigned f interner left && isUnsigned f interner right then
              (root f left).bind fun left => (root f right).bind fun right =>
                comparisonFact op ifTrue ifFalse left right
            else none
        | _ => none
  | _ => none

def onlyPredecessor (b : BlockId) : Option BlockId :=
  match f.cfg.predecessors[b]? with
  | some [p] => some p
  | _ => none

/-- Facts established on entry to block `b`. -/
def guardFacts (b : BlockId) : List Fact :=
  f.blocks.filterMap fun block =>
    match guardOf f interner block.terminator with
    | some (target, fact) =>
      if target = b ∧ onlyPredecessor f target = some block.id then some fact else none
    | none => none

variable (dominators : Dominators)

/-- Facts of the block and of its dominators, walking up the dominator tree. -/
def dominatingFacts (guards : BlockId → List Fact) :
    Nat → BlockId → List Fact
  | 0, _ => []
  | fuel + 1, current =>
    guards current ++
      match dominators.immediateDominator current with
      | some parent => if parent ≠ current then dominatingFacts guards fuel parent else []
      | none => []

/-! ## Accesses -/

def isProven (facts : List Fact) (s : AmirStmt) : Bool :=
  match s with
  | .assign _ (.indexAccess base index false) =>
    match base.temp?, index.temp? with
    | some base, some index =>
      isSlice f interner base && isUnsigned f interner index &&
        match root f base, root f index with
        | some slice, some index =>
          facts.any fun fact => fact.1 == index && lenOf f fact.2 == some slice
        | _, _ => false
    | _, _ => false
  | _ => false

/-- The statements whose check can go. -/
def provenAccesses : List InstrId :=
  f.blocks.flatMap fun block =>
    let facts := dominatingFacts dominators (guardFacts f interner) f.blocks.length block.id
    if facts.isEmpty then []
    else (f.blockStmtIds block.id).filter fun id => isProven f interner facts (f.stmt id)

def setInBounds : AmirStmt → AmirStmt
  | .assign lhs (.indexAccess base index _) => .assign lhs (.indexAccess base index true)
  | s => s

/-- The function with proven accesses marked, and whether any
access changed. -/
def eliminateBoundsChecks : Option (AmirFunc × Bool) :=
  if (List.range f.blocks.length).all fun b => (guardFacts f interner b).isEmpty then
    some (f, false)
  else (new f).map fun dominators =>
    let proven := provenAccesses f interner dominators
    ({ f with stmts := f.stmts.mapIdx fun id s => if id ∈ proven then setInBounds s else s },
      !proven.isEmpty)

end Pass

/-! ## What a definition found in the table says -/

variable {t : TempId}

lemma Values.definition_mem {f : AmirFunc} {rv : AmirRvalue}
    (h : definition f t = some rv) : ∃ id : InstrId, f.stmts[id]? = some (.assign t rv) := by
  have hmem := mem_of_getLast? h
  obtain ⟨s, hs, hassigned⟩ := mem_filterMap.1 hmem
  obtain ⟨id, hid⟩ := getElem?_of_mem hs
  refine ⟨id, ?_⟩
  cases s with
  | assign lhs rhs =>
    simp only [assigned] at hassigned
    split at hassigned
    next hlhs =>
      cases hassigned
      rw [hid, hlhs]
    · cases hassigned
  | _ => cases hassigned

lemma Values.copySource_eq_some {d : Option AmirRvalue} {source : TempId}
    (h : copySource d = some source) : ∃ op, d = some (.use op) ∧ op.temp? = some source := by
  unfold copySource at h
  split at h
  · exact ⟨_, rfl, h⟩
  · cases h

/-! ## Roots -/

variable {fact : Fact} {interner : TypeInterner} {b target : BlockId} {k : Nat}

section Sound

variable {E : Env} {f : AmirFunc} {st₀ : State E.host} {fuel : Nat}

/-- The right-hand sides whose operands the pass follows to their roots. -/
def readsRoots : AmirRvalue → Bool
  | .binary op _ _ => op == .lt || op == .gt || op == .ltEqual || op == .gtEqual
  | .len _ | .indexAccess _ _ false => true
  | _ => false

lemma rootLoop_spec (hwf : WellFormed f) (hssa : f.Ssa)
    (hcopies : CopiesKeepValue E f st₀ readsRoots) (hfollowed : Followed f readsRoots t)
    {r : TempId} (hroot : rootLoop f fuel t = some r) : SameValue E f st₀ t r := by
  induction fuel generalizing t with
  | zero => cases hroot
  | succ fuel ih =>
    unfold rootLoop at hroot
    split at hroot
    · cases hsrc : copySource (definition f t) with
      | none =>
        rw [hsrc] at hroot
        cases hroot
        exact SameValue.refl _
      | some source =>
        rw [hsrc] at hroot
        obtain ⟨op, hdef, hop⟩ := copySource_eq_some hsrc
        obtain ⟨id, hid⟩ := definition_mem hdef
        exact (sameValue_of_copy hwf hssa hcopies hfollowed hid hop).trans
          (ih (hfollowed.copy (mem_of_getElem? hid) hop) hroot)
    · cases hroot

/-! ## Guards at run time -/

variable {st st' : State E.host} {dominators : Dominators} {vals : List E.host.Val}
  {facts : List Fact} {w : E.host.Val} {op : BinaryOp}

lemma unsigned_value (ht : isUnsigned f E.interner t = true)
    (hfit : TempsFit E f st) {v : E.host.Val} (hv : st.temps t = some v) :
    ∃ n, v = .int n ∧ 0 ≤ n := by
  obtain ⟨tmp, htmp, w, hw⟩ := hfit t v hv
  unfold isUnsigned at ht
  rw [htmp] at ht
  simp only at ht
  split at ht
  next p hp =>
    simp only [Bool.and_eq_true, Bool.not_eq_true'] at ht
    obtain ⟨s, hs, hunsigned⟩ := Primitive.scalarKind_unsigned E.host.ptrBits ht.1 ht.2
    have hkind : (E.kind tmp.ty).intShape? = some s := by
      rw [Env.kind, hp]
      exact hs
    obtain ⟨n, rfl⟩ := E.host.conform_intShape hkind hw
    exact ⟨s.wrap n, rfl, s.wrap_nonneg n hunsigned⟩
  · cases ht

lemma branch_taken {c : AmirOperand} {t e : BlockId} {ta fa : List AmirOperand}
    (h : execTerminator E f st (.branch c t ta e fa) = .running b st') :
    (b = t ∧ evalOperand E st c = .ok (.bool true)) ∨
      (b = e ∧ evalOperand E st c = .ok (.bool false)) := by
  simp only [execTerminator] at h
  split at h
  next hc => exact .inl ⟨(jump_running.1 h).1, hc⟩
  next hc => exact .inr ⟨(jump_running.1 h).1, hc⟩
  · cases h
  · cases h

lemma guardOf_eq_some {term : AmirTerminator} (h : guardOf f interner term = some (target, fact)) :
    ∃ condition ifTrue ta ifFalse fa c op l r left right rl rr,
      term = .branch condition ifTrue ta ifFalse fa ∧ condition.temp? = some c ∧
      ifTrue ≠ ifFalse ∧ definition f c = some (.binary op l r) ∧
      l.temp? = some left ∧ r.temp? = some right ∧
      isUnsigned f interner left = true ∧ isUnsigned f interner right = true ∧
      root f left = some rl ∧ root f right = some rr ∧
      comparisonFact op ifTrue ifFalse rl rr = some (target, fact) := by
  unfold guardOf at h
  split at h
  next condition ifTrue ta ifFalse fa =>
    obtain ⟨c, hc, h⟩ := bind_eq_some_iff.1 h
    split at h
    · cases h
    next hne =>
    split at h
    next op l r hdef =>
      obtain ⟨left, hl, h⟩ := bind_eq_some_iff.1 h
      obtain ⟨right, hr, h⟩ := bind_eq_some_iff.1 h
      split at h
      next huns =>
        rw [Bool.and_eq_true] at huns
        obtain ⟨rl, hrl, h⟩ := bind_eq_some_iff.1 h
        obtain ⟨rr, hrr, h⟩ := bind_eq_some_iff.1 h
        exact ⟨condition, ifTrue, ta, ifFalse, fa, c, op, l, r, left, right, rl, rr, rfl, hc,
          fun heq => hne (.inl heq), hdef, hl, hr, huns.1, huns.2, hrl, hrr, h⟩
      · cases h
    · cases h
  · cases h

lemma comparisonFact_lt {t e : BlockId} {rl rr lower upper : TempId}
    (h : comparisonFact op t e rl rr = some (target, (lower, upper))) (hne : t ≠ e)
    {shape : Option IntShape} {ty : TypeId} {x y : Int} {c : Bool}
    (heval : E.host.evalBinary shape op ty (.int x) (.int y) = .ok (.bool c))
    (htaken : (target = t ∧ c = true) ∨ (target = e ∧ c = false)) :
    (lower = rl ∧ upper = rr ∧ x < y) ∨ (lower = rr ∧ upper = rl ∧ y < x) := by
  cases op <;> simp only [comparisonFact] at h
  all_goals obtain ⟨rfl, rfl, rfl⟩ := h
  all_goals
    simp only [Host.evalBinary, intBinary, getD_some, Except.ok.injEq, Value.bool.injEq] at heval
    subst heval
  · -- `l < r` on the true edge
    rcases htaken with ⟨-, hc⟩ | ⟨heq, -⟩
    · exact .inl ⟨rfl, rfl, by simpa using hc⟩
    · exact absurd heq hne
  · -- `l > r` on the true edge
    rcases htaken with ⟨-, hc⟩ | ⟨heq, -⟩
    · exact .inr ⟨rfl, rfl, by simpa using hc⟩
    · exact absurd heq hne
  · -- `l <= r` on the false edge
    rcases htaken with ⟨heq, -⟩ | ⟨-, hc⟩
    · exact absurd heq.symm hne
    · exact .inr ⟨rfl, rfl, by simpa using hc⟩
  · -- `l >= r` on the false edge
    rcases htaken with ⟨heq, -⟩ | ⟨-, hc⟩
    · exact absurd heq.symm hne
    · exact .inl ⟨rfl, rfl, by simpa using hc⟩

/-- The two temps of a fact hold integers in the order the fact states. -/
def FactHolds (E : Env) (fact : Fact) (st : State E.host) : Prop :=
  ∃ x y, st.temps fact.1 = some (.int x) ∧ st.temps fact.2 = some (.int y) ∧ x < y

lemma FactHolds.congr (h : FactHolds E fact st) (h1 : st'.temps fact.1 = st.temps fact.1)
    (h2 : st'.temps fact.2 = st.temps fact.2) : FactHolds E fact st' := by
  unfold FactHolds
  rw [h1, h2]
  exact h

section Guards

variable (hwf : WellFormed f) (hssa : f.Ssa) (hcopies : CopiesKeepValue E f st₀ readsRoots)
  (hinit : IsInitial E f st₀)

include hwf hssa hcopies hinit

/-- When the guarding edge is taken, its fact holds and its temps are settled at the end of the
guarding block. -/
lemma guard_holds {g : BlockId}
    (hguard : guardOf f E.interner (f.block g).terminator = some (target, fact))
    (hreach : ReachesStmt E f st₀ g (f.blockStmts g).length st)
    (hterm : execTerminator E f st (f.block g).terminator = .running target st') :
    FactHolds E fact st ∧ f.Settled fact.1 g (f.blockStmts g).length ∧
      f.Settled fact.2 g (f.blockStmts g).length := by
  obtain ⟨condition, ifTrue, ta, ifFalse, fa, c, op, l, r, left, right, rl, rr, hbranch, hc, hne,
    hdef, hl, hr, hul, hur, hrl, hrr, hcmp⟩ := guardOf_eq_some hguard
  have hg := hreach.reachable
  have hfit := hreach.tempsFit hinit
  have huse : f.UsedAt c g (f.blockStmts g).length :=
    .inr ⟨rfl, mem_operandTemps.2 ⟨condition, by simp [hbranch, AmirTerminator.operands], hc⟩⟩
  obtain ⟨id, hid⟩ := definition_mem hdef
  obtain ⟨d, j, hs, hpos⟩ := (hssa.settled_use hg huse).position hid rfl
  -- the comparison, read in the current state
  obtain ⟨tmp, v, x, y, w, -, hw, hx, hy, heval, hconf⟩ := computed_binary hwf hssa hs hreach hpos
  have hx := (evalOperand_temp hl).1 hx
  have hy := (evalOperand_temp hr).1 hy
  obtain ⟨m, rfl, -⟩ := unsigned_value hul hfit hx
  obtain ⟨n, rfl, -⟩ := unsigned_value hur hfit hy
  have hroot : ∀ o rt, (o = l ∨ o = r) → ∀ s, o.temp? = some s → root f s = some rt →
      f.Settled rt g (f.blockStmts g).length ∧ st.temps s = st.temps rt := by
    intro o rt ho s hos hroot
    have hmem : s ∈ operandTemps (assign c (.binary op l r)).operands :=
      mem_operandTemps.2 ⟨o, by simpa [operands, AmirRvalue.operands] using ho, hos⟩
    have hfollowed : Followed f readsRoots s := by
      refine .operand (mem_of_getElem? hid) ?_ hmem
      cases op <;> first | rfl | cases hcmp
    exact rootLoop_spec hwf hssa hcopies hfollowed hroot g _ st hreach
      (hssa.settled_operand hg hs hmem hpos)
  obtain ⟨h1, hleft⟩ := hroot l rl (.inl rfl) left hl hrl
  obtain ⟨h2, hright⟩ := hroot r rr (.inr rfl) right hr hrr
  rw [hx] at hleft
  rw [hy] at hright
  -- the branch read a boolean, and the comparison of two integers is one
  rw [hbranch] at hterm
  obtain ⟨β, hβ, htaken⟩ : ∃ β, w = .bool β ∧
      ((target = ifTrue ∧ β = true) ∨ (target = ifFalse ∧ β = false)) := by
    rcases branch_taken hterm with ⟨ht, hval⟩ | ⟨ht, hval⟩
    · have := (evalOperand_temp hc).1 hval
      rw [hw] at this
      exact ⟨true, some.inj this, .inl ⟨ht, rfl⟩⟩
    · have := (evalOperand_temp hc).1 hval
      rw [hw] at this
      exact ⟨false, some.inj this, .inr ⟨ht, rfl⟩⟩
  subst hβ
  have hraw : ∃ β', v = .bool β' := by
    cases op <;> simp only [comparisonFact, reduceCtorEq] at hcmp <;>
      simp only [Host.evalBinary, intBinary, getD_some, Except.ok.injEq] at heval <;>
      exact ⟨_, heval.symm⟩
  obtain ⟨β', rfl⟩ := hraw
  rw [← E.host.conform_bool hconf] at heval
  rcases comparisonFact_lt hcmp hne heval htaken with ⟨rfl, rfl, hlt⟩ | ⟨rfl, rfl, hlt⟩
  · exact ⟨⟨m, n, hleft.symm, hright.symm, hlt⟩, h1, h2⟩
  · exact ⟨⟨n, m, hright.symm, hleft.symm, hlt⟩, h2, h1⟩

end Guards

/-! ## Facts in dominated blocks -/

/-- The entry is not the target of a guard that counts as its only predecessor: the first
entry into the function takes no edge. -/
def EntryUnguarded (f : AmirFunc) : Prop :=
  ∀ g, onlyPredecessor f 0 = some g → ∀ c t ta e fa, (f.block g).terminator ≠ .branch c t ta e fa

lemma mem_guardFacts (hwf : WellFormed f) (h : fact ∈ guardFacts f interner b) :
    ∃ g, guardOf f interner (f.block g).terminator = some (b, fact) ∧
      onlyPredecessor f b = some g := by
  obtain ⟨block, hblock, hmatch⟩ := mem_filterMap.1 h
  obtain ⟨g, hg⟩ := getElem?_of_mem hblock
  obtain ⟨hlt, hget⟩ := List.getElem?_eq_some_iff.1 hg
  have hbg : f.block g = block := by rw [block_eq_getElem hlt, hget]
  split at hmatch
  next target fact' hguard =>
    split at hmatch
    next hcond =>
      cases hmatch
      obtain ⟨rfl, honly⟩ := hcond
      refine ⟨g, by rw [hbg, hguard], ?_⟩
      rw [honly, ← hbg, hwf.blockId g hlt]
    · cases hmatch
  · cases hmatch

lemma edge_of_onlyPredecessor (hcfg : f.CfgCovers) {g m : BlockId}
    (h : onlyPredecessor f b = some g) (hedge : f.Edge m b) : m = g := by
  have hmem : m ∈ f.predecessors b := (hcfg.mirror m b).1 (hcfg.covers m b hedge)
  unfold onlyPredecessor at h
  split at h
  next p hp =>
    cases h
    simpa [AmirFunc.predecessors, hp] using hmem
  · cases h

lemma fact_holds (hwf : WellFormed f) (hssa : f.Ssa) (hcopies : CopiesKeepValue E f st₀ readsRoots)
    (hinit : IsInitial E f st₀) (hcfg : f.CfgCovers) (hentry : EntryUnguarded f)
    (hmem : fact ∈ guardFacts f E.interner target) (hreach : ReachesStmt E f st₀ b k st)
    (hdom : Dominates f.Edge 0 target b) :
    FactHolds E fact st ∧ f.Settled fact.1 b k ∧ f.Settled fact.2 b k := by
  obtain ⟨g, hguard, honly⟩ := mem_guardFacts hwf hmem
  have hb := hreach.reachable
  have htarget : Reachable f.Edge 0 target := hdom.reachable hb
  have hne0 : target ≠ 0 := by
    rintro rfl
    obtain ⟨_, _, _, _, _, _, _, _, _, _, _, _, _, hterm, -⟩ := guardOf_eq_some hguard
    exact hentry g honly _ _ _ _ _ hterm
  have hpred : ∀ m, f.Edge m target → m = g := fun m => edge_of_onlyPredecessor hcfg honly
  have hgne : g ≠ target := by
    obtain ⟨m, hm, -, hedge⟩ := htarget.exists_pred_ne hne0
    exact hpred m hedge ▸ hm
  have hgdom : Dominates f.Edge 0 g target := dominates_of_only_pred hne0 hpred
  -- below the target, the guarding block stays strictly above
  have hbelow : ∀ x, Reachable f.Edge 0 x → Dominates f.Edge 0 target x →
      g ≠ x ∧ Dominates f.Edge 0 g x := by
    intro x hx hx'
    refine ⟨?_, hgdom.trans hx'⟩
    rintro rfl
    exact hgne (hgdom.antisymm hx hx')
  have hentryHolds : ∀ x stx, ReachesBlock E f st₀ x stx → Dominates f.Edge 0 target x →
      FactHolds E fact stx ∧ f.Settled fact.1 g (f.blockStmts g).length ∧
        f.Settled fact.2 g (f.blockStmts g).length := by
    intro x stx hx
    refine ReachesBlock.induction (P := fun x stx => Dominates f.Edge 0 target x →
      FactHolds E fact stx ∧ f.Settled fact.1 g (f.blockStmts g).length ∧
        f.Settled fact.2 g (f.blockStmts g).length) ?_ ?_ hx
    · intro h0
      exact absurd h0.eq_entry hne0
    intro x stx y sty hx ih hstep hdomy
    have hy := (hx.step hstep).reachable
    by_cases hty : target = y
    · -- arrival over the guarding edge
      subst hty
      obtain rfl := hpred x (step_edge hstep)
      obtain ⟨st₁, args, hrun, -, hterm, hedge⟩ := step_running hstep
      have hend : ReachesStmt E f st₀ x (f.blockStmts x).length st₁ :=
        ⟨stx, hx, by rwa [take_length]⟩
      obtain ⟨hfact, h1, h2⟩ := guard_holds hwf hssa hcopies hinit hguard hend hterm
      refine ⟨hfact.congr ?_ ?_, h1, h2⟩
      · exact hedge.temps (h1.not_param hy hgne hgdom)
      · exact hedge.temps (h2.not_param hy hgne hgdom)
    · have hdomx : Dominates f.Edge 0 target x := (hdomy.pred (step_edge hstep)).resolve_left hty
      obtain ⟨hfact, h1, h2⟩ := ih hdomx
      obtain ⟨hgx, hgdomx⟩ := hbelow x hx.reachable hdomx
      obtain ⟨hgy, hgdomy⟩ := hbelow y hy hdomy
      exact ⟨hfact.congr (h1.step_temps hwf hx.reachable hgx hgdomx hgy hgdomy hstep)
        (h2.step_temps hwf hx.reachable hgx hgdomx hgy hgdomy hstep), h1, h2⟩
  obtain ⟨stb, hstb, hrun⟩ := hreach
  obtain ⟨hfact, h1, h2⟩ := hentryHolds b stb hstb hdom
  obtain ⟨hgb, hgdomb⟩ := hbelow b hb hdom
  exact ⟨hfact.congr (h1.prefix_temps hwf hb hgb hgdomb hrun)
    (h2.prefix_temps hwf hb hgb hgdomb hrun), h1.trans hb (.inr ⟨hgb, hgdomb⟩),
    h2.trans hb (.inr ⟨hgb, hgdomb⟩)⟩

/-! ## Proven accesses -/

lemma mem_dominatingFacts {guards : BlockId → List Fact}
    (h : fact ∈ dominatingFacts dominators guards fuel b) :
    ∃ d, Ancestor dominators.idoms d b ∧ fact ∈ guards d := by
  induction fuel generalizing b with
  | zero => cases h
  | succ fuel ih =>
    unfold dominatingFacts at h
    rcases mem_append.1 h with h | h
    · exact ⟨b, .refl b, h⟩
    split at h
    next parent hparent =>
      split at h
      · obtain ⟨d, hd, hmem⟩ := ih h
        refine ⟨d, .up ?_ hd, hmem⟩
        unfold immediateDominator at hparent
        split at hparent
        · exact hparent
        · cases hparent
      · cases h
    · cases h

lemma isProven_eq_true {s : AmirStmt} (h : isProven f interner facts s = true) :
    ∃ lhs base index tb ti slice fact, s = .assign lhs (.indexAccess base index false) ∧
      base.temp? = some tb ∧ index.temp? = some ti ∧ isUnsigned f interner ti = true ∧
      root f tb = some slice ∧ fact ∈ facts ∧ root f ti = some fact.1 ∧
      lenOf f fact.2 = some slice := by
  unfold isProven at h
  split at h
  next lhs base index =>
    split at h
    next tb ti hb hi =>
      rw [Bool.and_eq_true, Bool.and_eq_true] at h
      obtain ⟨⟨-, huns⟩, h⟩ := h
      split at h
      next slice idx hslice hidx =>
        obtain ⟨fact, hfact, hcond⟩ := any_eq_true.1 h
        simp only [Bool.and_eq_true, beq_iff_eq] at hcond
        exact ⟨lhs, base, index, tb, ti, slice, fact, rfl, hb, hi, huns, hslice, hfact,
          hidx.trans (by rw [hcond.1]), hcond.2⟩
      · cases h
    · cases h
  · cases h

lemma lenOf_eq_some {slice : TempId} (h : lenOf f t = some slice) :
    ∃ op s, definition f t = some (.len op) ∧ op.temp? = some s ∧ root f s = some slice := by
  unfold lenOf at h
  split at h
  next op hdef =>
    obtain ⟨s, hs, hroot⟩ := bind_eq_some_iff.1 h
    exact ⟨op, s, hdef, hs, hroot⟩
  · cases h

lemma execStmt_len {op : AmirOperand}
    (hvals : evalOperands E st (assign t (.len op)).operands = .ok vals)
    (hexec : execStmt E f st (.assign t (.len op)) = .ok st') (hw : st'.temps t = some w) :
    ∃ tmp v n, vals = [v] ∧ lengthOf E v = some n ∧ E.conform tmp (.int n) = .ok w := by
  obtain ⟨tmp, v, heap, -, hrv, hassign⟩ := execStmt_assign_ok hvals hexec hw
  obtain ⟨x, -, rfl⟩ := evalOperands_singleton.1 hvals
  obtain ⟨v', hv', hpair⟩ := Res.bind_eq_ok.1
    (by simpa [evalRvalue, AmirRvalue.isEffect] using hrv)
  cases hpair
  simp only [readRvalue] at hv'
  split at hv'
  next n hn =>
    cases hv'
    exact ⟨tmp.ty, x, n, rfl, hn, hassign⟩
  · cases hv'

def InBounds (E : Env) (base index : AmirOperand) (st : State E.host) : Prop :=
  ∃ v i n, evalOperand E st base = .ok v ∧ lengthOf E v = some n ∧
    evalOperand E st index = .ok (.int i) ∧ 0 ≤ i ∧ i < n

section Accesses

variable (hwf : WellFormed f) (hssa : f.Ssa) (hcopies : CopiesKeepValue E f st₀ readsRoots)
  (hinit : IsInitial E f st₀) (hcfg : f.CfgCovers) (hentry : EntryUnguarded f)

include hwf hssa hcopies hinit hcfg hentry

lemma access_inBounds (hreach : ReachesStmt E f st₀ b k st)
    (hfacts : ∀ fact ∈ facts, ∃ d, Dominates f.Edge 0 d b ∧ fact ∈ guardFacts f E.interner d)
    {lhs : TempId} {base index : AmirOperand}
    (hs : (f.blockStmts b)[k]? = some (.assign lhs (.indexAccess base index false)))
    (hproven : isProven f E.interner facts (.assign lhs (.indexAccess base index false)) = true) :
    InBounds E base index st := by
  obtain ⟨lhs', base', index', tb, ti, slice, fact, heq, hbase, hindex, huns, hslice, hfact, hidx,
    hlen⟩ := isProven_eq_true hproven
  cases heq
  have hb := hreach.reachable
  have hread : ∀ o t, o = base ∨ o = index → o.temp? = some t →
      Followed f readsRoots t ∧ f.Settled t b k := by
    intro o t ho ht
    have hmem : t ∈ operandTemps (assign lhs (.indexAccess base index false)).operands :=
      mem_operandTemps.2 ⟨o, by simpa [operands, AmirRvalue.operands] using ho, ht⟩
    obtain ⟨id, -, hid⟩ := mem_stmts_of_blockStmts hs rfl
    exact ⟨.operand (mem_of_getElem? hid) rfl hmem, hssa.settled_use hb (.inl ⟨_, hs, hmem⟩)⟩
  obtain ⟨d, hdom, hguard⟩ := hfacts fact hfact
  obtain ⟨⟨x, y, hx, hy, hxy⟩, -, hupper⟩ :=
    fact_holds hwf hssa hcopies hinit hcfg hentry hguard hreach hdom
  -- the index holds the lower temp of the fact
  obtain ⟨hfollowed, hsettled⟩ := hread index ti (.inr rfl) hindex
  have hti := (rootLoop_spec hwf hssa hcopies hfollowed hidx b k st hreach hsettled).2
  rw [hx] at hti
  obtain ⟨i, hi, hnonneg⟩ := unsigned_value huns (hreach.tempsFit hinit) hti
  cases hi
  -- the upper temp holds the length of the slice
  obtain ⟨op, s, hdef, hop, hroot⟩ := lenOf_eq_some hlen
  obtain ⟨id, hid⟩ := definition_mem hdef
  obtain ⟨e, j, hsl, hpos⟩ := hupper.position hid rfl
  obtain ⟨vals, w, hvals, hw, ty, v, n, rfl, hn, hconf⟩ :=
    hssa.available hwf hsl rfl (R := fun vals w => ∃ ty v n, vals = [v] ∧
      lengthOf E v = some n ∧ E.conform ty (.int n) = .ok w)
      (fun st st' vals w _ hvals hexec hw => execStmt_len hvals hexec hw) hreach hpos
  obtain ⟨v', hv', hvv⟩ := evalOperands_singleton.1 hvals
  cases hvv
  have hmem : s ∈ operandTemps (assign fact.2 (.len op)).operands :=
    mem_operandTemps.2 ⟨op, by simp [operands, AmirRvalue.operands], hop⟩
  have hsval := (rootLoop_spec hwf hssa hcopies (.operand (mem_of_getElem? hid) rfl hmem) hroot
    b k st hreach (hssa.settled_operand hb hsl hmem hpos)).2
  obtain ⟨hfollowed, hsettled⟩ := hread base tb (.inl rfl) hbase
  have hbval := (rootLoop_spec hwf hssa hcopies hfollowed hslice b k st hreach hsettled).2
  rw [(evalOperand_temp hop).1 hv'] at hsval
  rw [← hsval] at hbval
  rw [hy] at hw
  cases hw
  have hle : y ≤ n := by
    rcases E.host.conform_int hconf with rfl | ⟨shape, rfl⟩
    · exact Int.le_refl _
    · exact shape.wrap_le_self (Int.natCast_nonneg n)
  exact ⟨v, x, n, (evalOperand_temp hbase).2 hbval, hn, (evalOperand_temp hindex).2 hti, hnonneg,
    Int.lt_of_lt_of_le hxy hle⟩

end Accesses

/-! ## The pass -/

lemma mem_proven_of_rewritten {proven : List InstrId} {lhs : TempId} {base index : AmirOperand}
    (hs : (f.blockStmts b)[k]? = some (.assign lhs (.indexAccess base index false)))
    (hs' : ({ f with stmts := f.stmts.mapIdx fun id s =>
        if id ∈ proven then setInBounds s else s }.blockStmts b)[k]? =
      some (.assign lhs (.indexAccess base index true))) :
    ∃ id ∈ proven, (f.blockStmtIds b)[k]? = some id := by
  obtain ⟨id, hid, hstmt⟩ := stmt_of_blockStmts hs
  obtain ⟨id', hid', hstmt'⟩ := stmt_of_blockStmts hs'
  have hids : id' = id := by
    have : (f.blockStmtIds b)[k]? = some id' := hid'
    rw [hid] at this
    exact (some.inj this).symm
  subst hids
  refine ⟨id', ?_, hid⟩
  by_contra hnot
  simp only [AmirFunc.stmt] at hstmt hstmt'
  cases hget : f.stmts[id']? with
  | none => simp [hget] at hstmt
  | some s =>
    simp [hget] at hstmt
    simp [hget, hnot, hstmt] at hstmt'

lemma mem_provenAccesses (hwf : WellFormed f) {id : InstrId}
    (h : id ∈ provenAccesses f interner dominators) (hid : (f.blockStmtIds b)[k]? = some id) :
    isProven f interner
      (dominatingFacts dominators (guardFacts f interner) f.blocks.length b) (f.stmt id) =
      true := by
  obtain ⟨block, hblock, hmem⟩ := mem_flatMap.1 h
  obtain ⟨g, hg⟩ := getElem?_of_mem hblock
  obtain ⟨hlt, hget⟩ := List.getElem?_eq_some_iff.1 hg
  have hbid : block.id = g := by
    rw [← hget, ← block_eq_getElem hlt]
    exact hwf.blockId g hlt
  dsimp only at hmem
  split at hmem
  · cases hmem
  · obtain ⟨hin, hproven⟩ := mem_filter.1 hmem
    rw [hbid] at hin hproven
    obtain rfl := hwf.stmtOwner g b id hin (mem_of_getElem? hid)
    exact hproven

/-- On every run in which the copies that the pass follows keep their values, and unless a guard
is the only predecessor of the entry, the pass returns and an access whose check it removed is in
bounds whenever the run reaches it. -/
theorem eliminateBoundsChecks_sound (hval : validateAmirFunc f E.interner = [])
    (hssa : f.Ssa) (hcfg : f.CfgCovers) (hentry : EntryUnguarded f)
    (hinit : IsInitial E f st₀) (hcopies : CopiesKeepValue E f st₀ readsRoots) :
    ∃ f' changed, eliminateBoundsChecks f E.interner = some (f', changed) ∧
      ∀ b k st lhs base index, ReachesStmt E f st₀ b k st →
        (f.blockStmts b)[k]? = some (.assign lhs (.indexAccess base index false)) →
        (f'.blockStmts b)[k]? = some (.assign lhs (.indexAccess base index true)) →
        InBounds E base index st := by
  have hwf := wellFormed_of_validate hval
  unfold eliminateBoundsChecks
  split
  · refine ⟨f, false, rfl, ?_⟩
    intro b k st lhs base index _ hs hs'
    rw [hs] at hs'
    cases hs'
  · obtain ⟨idoms, htable, hnew⟩ := exists_new hwf.nonempty hcfg.mirror
    rw [hnew]
    refine ⟨_, _, rfl, ?_⟩
    intro b k st lhs base index hreach hs hs'
    obtain ⟨id, hproven, hid⟩ := mem_proven_of_rewritten hs hs'
    have hisProven := mem_provenAccesses hwf hproven hid
    obtain ⟨id', hid', hstmt⟩ := stmt_of_blockStmts hs
    rw [hid] at hid'
    cases hid'
    rw [hstmt] at hisProven
    refine access_inBounds hwf hssa hcopies hinit hcfg hentry hreach ?_ hs hisProven
    intro fact hfact
    obtain ⟨d, hanc, hguard⟩ := mem_dominatingFacts hfact
    have hdom : Dominates f.StoredEdge 0 d b := htable.ancestor_dominates hcfg.mirror hanc
    exact ⟨d, hdom.anti (edge_stored hcfg hwf.targets), hguard⟩

end Sound

/-! ## A guard on a truncated index -/

/-- `usize`, `u8`, a slice of `u8`, `bool`. -/
def accessTypes : TypeInterner :=
  ⟨[.primitive .usize, .primitive .u8, .slice 1, .primitive .bool]⟩

variable (castTy : TypeId)

/-- `let j = (i as T) as usize; if j < len(s) { s[i] }`, where `castTy` is the type id of
`T`; `_1` is `i` and `_2` is `s`. -/
def guardedAccess : AmirFunc :=
  let blocks : List AmirBasicBlock :=
    [ ⟨0, .empty, ⟨0, 4⟩, .branch (.copy 6) 1 [] 2 []⟩, ⟨1, .empty, ⟨4, 1⟩, .return⟩,
      ⟨2, .empty, ⟨5, 0⟩, .return⟩ ]
  { symbol := 0, returnType := 1, receiver := none, params := [1, 2], locals := []
    temps := [⟨0, 1, true, false⟩, ⟨1, 0, true, false⟩, ⟨2, 2, true, false⟩,
      ⟨3, castTy, true, false⟩, ⟨4, 0, true, false⟩, ⟨5, 0, true, false⟩, ⟨6, 3, true, false⟩]
    blocks := blocks, blockParams := []
    stmts :=
      [ .assign 3 (.use (.copy 1)), .assign 4 (.use (.copy 3)), .assign 5 (.len (.copy 2)),
        .assign 6 (.binary .lt (.copy 4) (.copy 5)),
        .assign 0 (.indexAccess (.copy 2) (.copy 1) false) ]
    cfg := computeCfgEdges blocks }

def accessEnv : Env where
  interner := accessTypes
  pool := ⟨[]⟩
  host := Host.lengths
  frame := fun _ => false

/-- Called with index `i` and a slice of one element. -/
def accessCall (i : Int) : State Host.lengths :=
  .ofInputs (h := Host.lengths) (0 : Int) () [(1, .int i), (2, .obj (1 : Nat))]

lemma guardedAccess_valid (h : castTy < 2) :
    validateAmirFunc (guardedAccess castTy) accessTypes = [] ∧ (guardedAccess castTy).Ssa ∧
      (guardedAccess castTy).CfgCovers ∧ EntryUnguarded (guardedAccess castTy) := by
  have hall : ∀ c < 2, validateAmirFunc (guardedAccess c) accessTypes = [] ∧
      isSsa (guardedAccess c) = true ∧ onlyPredecessor (guardedAccess c) 0 = none := by
    decide
  have hcheck := hall castTy h
  have htargets := (wellFormed_of_validate hcheck.1).targets
  have hcfg := cfgCovers_of_compute (f := guardedAccess castTy) rfl htargets
  refine ⟨hcheck.1, ssa_of_isSsa hcfg htargets hcheck.2.1, hcfg, ?_⟩
  intro g hg
  cases hg

lemma accessCall_initial (i : Int) (h : 0 ≤ i) (hlt : i < 2 ^ 64) :
    IsInitial accessEnv (guardedAccess castTy) (accessCall i) := by
  have hmem : ∀ iv : TempId × accessEnv.host.Val,
      iv ∈ [((1, .int i) : TempId × accessEnv.host.Val), (2, .obj (1 : Nat))] →
      iv = (1, .int i) ∨ iv = (2, .obj (1 : Nat)) := by simp
  refine isInitial_ofInputs (E := accessEnv) (fun iv hiv => ?_) (fun iv hiv => ?_)
  · rcases hmem iv hiv with rfl | rfl <;> simp [guardedAccess]
  rcases hmem iv hiv with rfl | rfl
  · refine ⟨_, rfl, .int i, ?_⟩
    have hwrap := IntShape.wrap_of_unsigned ⟨64, false⟩ rfl h hlt
    exact congrArg (fun n => Except.ok (Value.int n)) hwrap
  · exact ⟨_, rfl, .obj (1 : Nat), rfl⟩

/-- `i = 256` passes the guard as `0`, and the access it guards reads out of bounds. -/
theorem eliminateBoundsChecks_truncated_index :
    validateAmirFunc (guardedAccess 1) accessTypes = [] ∧ (guardedAccess 1).Ssa ∧
      (guardedAccess 1).CfgCovers ∧ IsInitial accessEnv (guardedAccess 1) (accessCall 256) ∧
      ∃ f' st, eliminateBoundsChecks (guardedAccess 1) accessTypes = some (f', true) ∧
        (f'.blockStmts 1)[0]? = some (.assign 0 (.indexAccess (.copy 2) (.copy 1) true)) ∧
        ((guardedAccess 1).blockStmts 1)[0]? =
          some (.assign 0 (.indexAccess (.copy 2) (.copy 1) false)) ∧
        ReachesStmt accessEnv (guardedAccess 1) (accessCall 256) 1 0 st ∧
        evalOperand accessEnv st (.copy 1) = .ok (.int 256) ∧
        evalOperand accessEnv st (.copy 2) = .ok (.obj (1 : Nat)) ∧
        lengthOf accessEnv (.obj (1 : Nat)) = some 1 := by
  obtain ⟨hval, hssa, hcfg, -⟩ := guardedAccess_valid 1 (by decide)
  refine ⟨hval, hssa, hcfg, accessCall_initial 1 256 (by decide) (by decide), ?_⟩
  exact ⟨_, _, rfl, rfl, rfl, ⟨_, ⟨1, rfl⟩, rfl⟩, rfl, rfl, rfl⟩

/-- Without the cast the same access is in bounds when it is reached. -/
theorem eliminateBoundsChecks_sound_guardedAccess :
    ∃ st, ReachesStmt accessEnv (guardedAccess 0) (accessCall 0) 1 0 st ∧
      InBounds accessEnv (.copy 2) (.copy 1) st := by
  obtain ⟨hval, hssa, hcfg, hentry⟩ := guardedAccess_valid 0 (by decide)
  have hcopies : CopiesKeepValue accessEnv (guardedAccess 0) (accessCall 0) readsRoots := by
    refine copiesKeepValue_of_sameType fun t op source hmem _ => ?_
    simp only [guardedAccess, mem_cons, assign.injEq, AmirRvalue.use.injEq,
      reduceCtorEq, and_false, not_mem_nil, or_false] at hmem
    rcases hmem with ⟨rfl, rfl⟩ | ⟨rfl, rfl⟩ <;> rfl
  obtain ⟨f', changed, helim, hsound⟩ := eliminateBoundsChecks_sound (E := accessEnv) hval hssa
    hcfg hentry (accessCall_initial 0 0 (by decide) (by decide)) hcopies
  have helim' : eliminateBoundsChecks (guardedAccess 0) accessTypes = some (f', changed) := helim
  have hout : (f'.blockStmts 1)[0]? =
      some (.assign 0 (.indexAccess (.copy 2) (.copy 1) true)) := by
    have hrun : (eliminateBoundsChecks (guardedAccess 0) accessTypes).map
        (fun r => (r.1.blockStmts 1)[0]?) =
        some (some (.assign 0 (.indexAccess (.copy 2) (.copy 1) true))) := by decide
    rw [helim'] at hrun
    exact some.inj hrun
  have hreach : ∃ st, ReachesStmt accessEnv (guardedAccess 0) (accessCall 0) 1 0 st :=
    ⟨_, _, ⟨1, rfl⟩, rfl⟩
  obtain ⟨st, hst⟩ := hreach
  exact ⟨st, hst, hsound 1 0 st 0 (.copy 2) (.copy 1) hst rfl hout⟩

end Arandu.Mir
