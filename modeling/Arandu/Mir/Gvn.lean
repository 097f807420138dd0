import Arandu.Amir.Observe
import Arandu.Amir.SsaCheck
import Arandu.Mir.Copies

/-!
# Global value numbering

Expressions are keyed by the leaders of their operands, and a statement whose key was
already recorded in a dominating block becomes a copy of the recorded temp. Leaders
follow `Use` copies, so two equal keys denote equal values only as long as copies keep
their values and the numbered fields are not read through a pointer.
-/

namespace Arandu.Mir

open Arandu.Amir Arandu.Library List Option AmirFunc AmirRvalue Dominators

/-! ## The pass -/

inductive ValueExpr where
  | unary (op : UnaryOp) (operand : TempId) (ty : TypeId)
  | binary (op : BinaryOp) (left right : TempId) (ty : TypeId)
  | fieldAccess (base : TempId) (field : Nat) (ty : TypeId)
deriving DecidableEq, Repr

/-- The state of the walk: leaders, recorded expressions in insertion order, and the
pending replacements `(statement, lhs, leader)`. -/
structure GvnState where
  tempLeader : TempId → TempId
  exprTable : List (ValueExpr × TempId × BlockId)
  replacements : List (InstrId × TempId × TempId)

def GvnState.start : GvnState := ⟨id, [], []⟩

def canonicalizeTemp (op : AmirOperand) (tempLeader : TempId → TempId) : Option TempId :=
  op.temp?.map tempLeader

/-- Operators whose result depends on their operands only. -/
def isPureBinary : BinaryOp → Bool
  | .add | .sub | .mul | .div | .mod | .equal | .notEqual | .lt | .ltEqual | .gt | .gtEqual
  | .bitAnd | .bitOr | .bitXor | .shiftLeft | .shiftRight => true
  | _ => false

def toValueExpr (rvalue : AmirRvalue) (tempLeader : TempId → TempId) (resultTy : TypeId) :
    Option ValueExpr :=
  match rvalue with
  | .unary op operand =>
    if op = .neg ∨ op = .not then
      (canonicalizeTemp operand tempLeader).map fun t => .unary op t resultTy
    else none
  | .binary op left right =>
    if isPureBinary op then
      (canonicalizeTemp left tempLeader).bind fun l =>
        (canonicalizeTemp right tempLeader).map fun r =>
          -- commutative operators are keyed with the smaller leader first
          if op.isCommutative ∧ r < l then .binary op r l resultTy else .binary op l r resultTy
    else none
  | .fieldAccess base field =>
    (canonicalizeTemp base tempLeader).map fun t => .fieldAccess t field resultTy
  | _ => none

/-- The leaders after seeing `lhs = rhs`. -/
def followCopy (lhs : TempId) (rhs : AmirRvalue) (tempLeader : TempId → TempId) : TempId → TempId :=
  match rhs with
  | .use op =>
    match canonicalizeTemp op tempLeader with
    | some t => fun u => if u = lhs then t else tempLeader u
    | none => tempLeader
  | _ => tempLeader

def findLeader (doms : Dominators) (b : BlockId) (expr : ValueExpr)
    (table : List (ValueExpr × TempId × BlockId)) : Option TempId :=
  (table.find? fun entry => entry.1 == expr && doms.dominates entry.2.2 b).map fun e => e.2.1

variable (f : AmirFunc)

def gvnStmt (doms : Dominators) (b : BlockId) (gs : GvnState) (id : InstrId) : GvnState :=
  match f.stmt id with
  | .assign lhs rhs =>
    match f.temps[lhs]? with
    | none => gs
    | some temp =>
      let gs := { gs with tempLeader := followCopy lhs rhs gs.tempLeader }
      match toValueExpr rhs gs.tempLeader temp.ty with
      | none => gs
      | some expr =>
        match findLeader doms b expr gs.exprTable with
        | some leader =>
          if leader ≠ lhs then
            { gs with replacements := gs.replacements ++ [(id, lhs, leader)] }
          else gs
        | none => { gs with exprTable := gs.exprTable ++ [(expr, lhs, b)] }
  | _ => gs

def gvnBlock (doms : Dominators) (gs : GvnState) (b : BlockId) : GvnState :=
  (f.blockStmtIds b).foldl (gvnStmt f doms b) gs

/-- All blocks in index order. -/
def gvnWalk (doms : Dominators) : GvnState :=
  (List.range f.blocks.length).foldl (gvnBlock f doms) .start

def applyReplacements (stmts : List AmirStmt) (replacements : List (InstrId × TempId × TempId)) :
    List AmirStmt :=
  replacements.foldl (fun stmts r => stmts.set r.1 (.assign r.2.1 (.use (.copy r.2.2)))) stmts

def gvn : Option (AmirFunc × Bool) :=
  if f.blocks.length = 0 ∨ f.stmts.isEmpty then some (f, false)
  else (new f).map fun doms =>
    let replacements := (gvnWalk f doms).replacements
    ({ f with stmts := applyReplacements f.stmts replacements }, !replacements.isEmpty)

/-! ## Keys -/

variable {expr : ValueExpr} {b : BlockId} {ty : TypeId} {rv : AmirRvalue} {k : Nat}
  {replacements : List (InstrId × TempId × TempId)} {tempLeader : TempId → TempId}

section Sound

variable {E : Env} {f : AmirFunc} {st₀ : State E.host}

/-- The right-hand sides that get a number. -/
def isNumbered : AmirRvalue → Bool
  | .unary op _ => op == .neg || op == .not
  | .binary op _ _ => isPureBinary op
  | .fieldAccess _ _ => true
  | _ => false

/-- Neither the replaced statement nor that of its leader reads a field through a pointer. -/
def ReadsNoPointer (E : Env) (f : AmirFunc) (r : InstrId × TempId × TempId) : Prop :=
  ∀ t base i, t = r.2.1 ∨ t = r.2.2 → AmirStmt.assign t (.fieldAccess base i) ∈ f.stmts →
    pointerBase E f base = false

/-- No field that the pass rereads from a leader is read through a pointer. -/
def NoPointerFields (E : Env) (f : AmirFunc) : Prop :=
  ∀ doms, new f = some doms → ∀ r ∈ (gvnWalk f doms).replacements, ReadsNoPointer E f r

/-- `expr` keys the right-hand side `rv` of result type `ty`: its operands are
interchangeable with the leaders in the key. -/
def Keyed (E : Env) (f : AmirFunc) (st₀ : State E.host) (rv : AmirRvalue) (ty : TypeId) :
    ValueExpr → Prop
  | .unary op l ty' => ty' = ty ∧ (op = .neg ∨ op = .not) ∧
      ∃ o x, rv = .unary op o ∧ o.temp? = some x ∧ SameValue E f st₀ x l
  | .binary op l r ty' => ty' = ty ∧
      ∃ o₁ o₂ x y, rv = .binary op o₁ o₂ ∧ o₁.temp? = some x ∧ o₂.temp? = some y ∧
        ((SameValue E f st₀ x l ∧ SameValue E f st₀ y r) ∨
          (op.isCommutative = true ∧ SameValue E f st₀ x r ∧ SameValue E f st₀ y l))
  | .fieldAccess l i ty' => ty' = ty ∧
      ∃ o x, rv = .fieldAccess o i ∧ o.temp? = some x ∧ SameValue E f st₀ x l

lemma isNumbered_of_toValueExpr (h : toValueExpr rv tempLeader ty = some expr) :
    isNumbered rv = true := by
  unfold toValueExpr at h
  split at h
  · split at h
    next hop => rcases hop with rfl | rfl <;> rfl
    · cases h
  · split at h
    next hop => exact hop
    · cases h
  · rfl
  · cases h

lemma keyed_toValueExpr
    (hleader : ∀ t ∈ operandTemps rv.operands, SameValue E f st₀ t (tempLeader t))
    (h : toValueExpr rv tempLeader ty = some expr) : Keyed E f st₀ rv ty expr := by
  have hoperand {o : AmirOperand} {x : TempId} (ho : o ∈ rv.operands) (hx : o.temp? = some x) :
      SameValue E f st₀ x (tempLeader x) := hleader x (mem_operandTemps.2 ⟨o, ho, hx⟩)
  cases rv with
  | unary op o =>
    simp only [toValueExpr] at h
    split at h
    next hop =>
      obtain ⟨l, hl, rfl⟩ := map_eq_some_iff.1 h
      obtain ⟨x, hx, rfl⟩ := map_eq_some_iff.1 hl
      exact ⟨rfl, hop, o, x, rfl, hx, hoperand mem_cons_self hx⟩
    · cases h
  | binary op o₁ o₂ =>
    simp only [toValueExpr] at h
    split at h
    · obtain ⟨l, hl, h⟩ := bind_eq_some_iff.1 h
      obtain ⟨r, hr, rfl⟩ := map_eq_some_iff.1 h
      obtain ⟨x, hx, rfl⟩ := map_eq_some_iff.1 hl
      obtain ⟨y, hy, rfl⟩ := map_eq_some_iff.1 hr
      have hl' := hoperand (o := o₁) mem_cons_self hx
      have hr' := hoperand (o := o₂) (mem_cons_of_mem _ mem_cons_self) hy
      split
      next hswap => exact ⟨rfl, o₁, o₂, x, y, rfl, hx, hy, .inr ⟨hswap.1, hl', hr'⟩⟩
      · exact ⟨rfl, o₁, o₂, x, y, rfl, hx, hy, .inl ⟨hl', hr'⟩⟩
    · cases h
  | fieldAccess o i =>
    obtain ⟨l, hl, rfl⟩ := map_eq_some_iff.1 h
    obtain ⟨x, hx, rfl⟩ := map_eq_some_iff.1 hl
    exact ⟨rfl, o, x, rfl, hx, hoperand mem_cons_self hx⟩
  | _ => cases h

def pureResult (E : Env) (ty : TypeId) (rv : AmirRvalue) (vals : List E.host.Val) :
    Res E.host.Val :=
  match rv, vals with
  | .unary op _, [v] => E.host.evalUnary op ty v
  | .binary op _ _, [a, b] => E.host.evalBinary (E.kind ty).intShape? op ty a b
  | .fieldAccess _ i, [v] => E.host.field i v
  | _, _ => .error .stuck

lemma Keyed.assignValue_eq (hkey : Keyed E f st₀ rv ty expr) :
    rv.isEffect = false ∧ ∀ tmp v, assignValue E f tmp rv v = E.conform tmp.ty v := by
  cases expr with
  | unary op l ty' =>
    obtain ⟨-, -, o, x, rfl, -⟩ := hkey
    exact ⟨rfl, fun _ _ => rfl⟩
  | binary op l r ty' =>
    obtain ⟨-, o₁, o₂, x, y, rfl, -⟩ := hkey
    exact ⟨rfl, fun _ _ => rfl⟩
  | fieldAccess l i ty' =>
    obtain ⟨-, o, x, rfl, -⟩ := hkey
    exact ⟨rfl, fun _ _ => rfl⟩

variable {st : State E.host} {rv' : AmirRvalue}

lemma evalRvalue_keyed (hkey : Keyed E f st₀ rv ty expr)
    (hfield : ∀ base i, rv = .fieldAccess base i → pointerBase E f base = false)
    {vals : List E.host.Val} (hvals : evalOperands E st rv.operands = .ok vals) :
    evalRvalue E f st ty rv vals = (pureResult E ty rv vals).map fun v => (v, st.heap) := by
  cases expr with
  | unary op l ty' =>
    obtain ⟨-, hop, o, x, rfl, -, -⟩ := hkey
    obtain ⟨v, -, rfl⟩ := evalOperands_singleton.1 hvals
    rcases hop with rfl | rfl <;>
    · simp only [evalRvalue, readRvalue, pureResult]
      generalize E.host.evalUnary _ _ _ = r
      cases r <;> rfl
  | binary op l r ty' =>
    obtain ⟨-, o₁, o₂, x, y, rfl, -⟩ := hkey
    obtain ⟨a, b, -, -, rfl⟩ := evalOperands_pair.1 hvals
    cases r <;> rfl
  | fieldAccess l i ty' =>
    obtain ⟨-, o, x, rfl, -, -⟩ := hkey
    obtain ⟨v, -, rfl⟩ := evalOperands_singleton.1 hvals
    simp only [evalRvalue, readRvalue, hfield o i rfl, pureResult]
    generalize E.host.field _ _ = r
    cases r <;> rfl

/-- Two right-hand sides with one key have the same operand values, up to the order of a
commutative operator, hence the same result. -/
lemma pureResult_keyed (hkey : Keyed E f st₀ rv ty expr) (hkey' : Keyed E f st₀ rv' ty expr)
    (hreach : ReachesStmt E f st₀ b k st) (hops : ∀ o ∈ operandTemps rv.operands, f.Settled o b k)
    (hops' : ∀ o ∈ operandTemps rv'.operands, f.Settled o b k)
    {vals' : List E.host.Val} (hvals' : evalOperands E st rv'.operands = .ok vals') :
    ∃ vals, evalOperands E st rv.operands = .ok vals ∧
      pureResult E ty rv vals = pureResult E ty rv' vals' := by
  have hval : ∀ {x l : TempId}, SameValue E f st₀ x l → f.Settled x b k →
      st.temps x = st.temps l := fun h hs => (h b k st hreach hs).2
  cases expr with
  | unary op l ty' =>
    obtain ⟨-, -, o, x, rfl, ho, hx⟩ := hkey
    obtain ⟨-, -, o', x', rfl, ho', hx'⟩ := hkey'
    obtain ⟨v, hv, rfl⟩ := evalOperands_singleton.1 hvals'
    have hsx := hops x (mem_operandTemps.2 ⟨o, mem_singleton_self o, ho⟩)
    have hsx' := hops' x' (mem_operandTemps.2 ⟨o', mem_singleton_self o', ho'⟩)
    have hread : st.temps x = some v := by
      rw [hval hx hsx, ← hval hx' hsx']
      exact (evalOperand_temp ho').1 hv
    exact ⟨[v], evalOperands_singleton.2 ⟨v, (evalOperand_temp ho).2 hread, rfl⟩, rfl⟩
  | fieldAccess l i ty' =>
    obtain ⟨-, o, x, rfl, ho, hx⟩ := hkey
    obtain ⟨-, o', x', rfl, ho', hx'⟩ := hkey'
    obtain ⟨v, hv, rfl⟩ := evalOperands_singleton.1 hvals'
    have hsx := hops x (mem_operandTemps.2 ⟨o, mem_singleton_self o, ho⟩)
    have hsx' := hops' x' (mem_operandTemps.2 ⟨o', mem_singleton_self o', ho'⟩)
    have hread : st.temps x = some v := by
      rw [hval hx hsx, ← hval hx' hsx']
      exact (evalOperand_temp ho').1 hv
    exact ⟨[v], evalOperands_singleton.2 ⟨v, (evalOperand_temp ho).2 hread, rfl⟩, rfl⟩
  | binary op l r ty' =>
    obtain ⟨-, o₁, o₂, x, y, rfl, ho₁, ho₂, hxy⟩ := hkey
    obtain ⟨-, o₁', o₂', x', y', rfl, ho₁', ho₂', hxy'⟩ := hkey'
    obtain ⟨v, w, hv, hw, rfl⟩ := evalOperands_pair.1 hvals'
    have hsx := hops x (mem_operandTemps.2 ⟨o₁, by simp [operands], ho₁⟩)
    have hsy := hops y (mem_operandTemps.2 ⟨o₂, by simp [operands], ho₂⟩)
    have hsx' := hops' x' (mem_operandTemps.2 ⟨o₁', by simp [operands], ho₁'⟩)
    have hsy' := hops' y' (mem_operandTemps.2 ⟨o₂', by simp [operands], ho₂'⟩)
    have hv := (evalOperand_temp ho₁').1 hv
    have hw := (evalOperand_temp ho₂').1 hw
    -- the values of the leaders `l` and `r`
    have hlr : (st.temps l = some v ∧ st.temps r = some w) ∨
        (op.isCommutative = true ∧ st.temps l = some w ∧ st.temps r = some v) := by
      rcases hxy' with ⟨hx', hy'⟩ | ⟨hop, hx', hy'⟩
      · exact .inl ⟨by rw [← hval hx' hsx', hv], by rw [← hval hy' hsy', hw]⟩
      · exact .inr ⟨hop, by rw [← hval hy' hsy', hw], by rw [← hval hx' hsx', hv]⟩
    have hread : (st.temps x = some v ∧ st.temps y = some w) ∨
        (op.isCommutative = true ∧ st.temps x = some w ∧ st.temps y = some v) := by
      rcases hxy with ⟨hx, hy⟩ | ⟨hop, hx, hy⟩
      · rw [hval hx hsx, hval hy hsy]
        exact hlr
      · rw [hval hx hsx, hval hy hsy]
        rcases hlr with ⟨hl, hr⟩ | ⟨-, hl, hr⟩
        · exact .inr ⟨hop, hr, hl⟩
        · exact .inl ⟨hr, hl⟩
    rcases hread with ⟨hx, hy⟩ | ⟨hop, hx, hy⟩
    · exact ⟨[v, w], evalOperands_pair.2 ⟨v, w, (evalOperand_temp ho₁).2 hx,
        (evalOperand_temp ho₂).2 hy, rfl⟩, rfl⟩
    · exact ⟨[w, v], evalOperands_pair.2 ⟨w, v, (evalOperand_temp ho₁).2 hx,
        (evalOperand_temp ho₂).2 hy, rfl⟩, E.host.evalBinary_comm _ _ w v hop⟩

/-! ## The walk -/

/-- Why statement `r.1` may become a copy of `r.2.2`: a statement with the same key
defines that temp and precedes it. -/
def Justified (E : Env) (f : AmirFunc) (st₀ : State E.host) (r : InstrId × TempId × TempId) :
    Prop :=
  ∃ b k d j rv rv' tmp tmp' expr, (f.blockStmtIds b)[k]? = some r.1 ∧
    (f.blockStmts b)[k]? = some (.assign r.2.1 rv) ∧
    (f.blockStmts d)[j]? = some (.assign r.2.2 rv') ∧ f.After d (j + 1) b k ∧
    f.temps[r.2.1]? = some tmp ∧ f.temps[r.2.2]? = some tmp' ∧ tmp'.ty = tmp.ty ∧
    Keyed E f st₀ rv tmp.ty expr ∧ Keyed E f st₀ rv' tmp.ty expr

/-- What holds before the walk visits statement `k` of block `b`. -/
structure GvnInv (E : Env) (f : AmirFunc) (st₀ : State E.host) (b : BlockId) (k : Nat)
    (gs : GvnState) : Prop where
  leaders : ∀ t, Followed f isNumbered t → SameValue E f st₀ t (gs.tempLeader t)
  table : ∀ e ∈ gs.exprTable, ∃ j rv tmp, (f.blockStmts e.2.2)[j]? = some (.assign e.2.1 rv) ∧
    (e.2.2 < b ∨ (e.2.2 = b ∧ j < k)) ∧ f.temps[e.2.1]? = some tmp ∧
    Keyed E f st₀ rv tmp.ty e.1
  replaced : ∀ r ∈ gs.replacements, Justified E f st₀ r

lemma Keyed.ty_eq {ty' : TypeId}
    (h : Keyed E f st₀ rv ty expr) (h' : Keyed E f st₀ rv' ty' expr) : ty' = ty := by
  cases expr <;> exact h'.1.symm.trans h.1

section Walk

variable (hwf : WellFormed f) (hssa : f.Ssa) (hcopies : CopiesKeepValue E f st₀ isNumbered)
  (hcfg : f.CfgCovers) {doms : Dominators} (hdoms : new f = some doms) {gs : GvnState}
  {id : InstrId}

include hwf hssa hcopies in
lemma followCopy_sameValue
    (hleader : ∀ t, Followed f isNumbered t → SameValue E f st₀ t (tempLeader t))
    {lhs : TempId} {rhs : AmirRvalue} (hid : f.stmts[id]? = some (.assign lhs rhs)) (t : TempId)
    (hfollowed : Followed f isNumbered t) :
    SameValue E f st₀ t (followCopy lhs rhs tempLeader t) := by
  unfold followCopy
  split
  next op =>
    cases hl : canonicalizeTemp op tempLeader with
    | none => exact hleader t hfollowed
    | some l =>
      obtain ⟨source, hop, rfl⟩ := map_eq_some_iff.1 hl
      dsimp only
      split
      next ht =>
        subst ht
        exact (sameValue_of_copy hwf hssa hcopies hfollowed hid hop).trans
          (hleader source (hfollowed.copy (mem_of_getElem? hid) hop))
      · exact hleader t hfollowed
  · exact hleader t hfollowed

include hwf hcfg hdoms in
/-- A recorded temp whose block dominates the current one is defined by a statement that
precedes the current one. -/
lemma after_of_dominates {d : BlockId} {j : Nat}
    (hdom : doms.dominates d b = true) (hpos : d < b ∨ (d = b ∧ j < k)) :
    f.After d (j + 1) b k := by
  rcases hpos with hlt | hsame
  · exact .inr ⟨Nat.ne_of_lt hlt, (dominates_sound hcfg.mirror hdoms hdom).anti
      (edge_stored hcfg hwf.targets)⟩
  · exact .inl hsame

include hwf hssa hcopies hcfg hdoms

lemma GvnInv.stmt (h : GvnInv E f st₀ b k gs) (hid : (f.blockStmtIds b)[k]? = some id) :
    GvnInv E f st₀ b (k + 1) (gvnStmt f doms b gs id) := by
  have hmono : ∀ e ∈ gs.exprTable, ∃ j rv tmp,
      (f.blockStmts e.2.2)[j]? = some (.assign e.2.1 rv) ∧
      (e.2.2 < b ∨ (e.2.2 = b ∧ j < k + 1)) ∧ f.temps[e.2.1]? = some tmp ∧
      Keyed E f st₀ rv tmp.ty e.1 := by
    intro e he
    obtain ⟨j, rv, tmp, hs, hpos, htmp, hkey⟩ := h.table e he
    exact ⟨j, rv, tmp, hs, hpos.imp_right fun hp => ⟨hp.1, Nat.lt_succ_of_lt hp.2⟩, htmp, hkey⟩
  have hkeep : GvnInv E f st₀ b (k + 1) gs := ⟨h.leaders, hmono, h.replaced⟩
  unfold gvnStmt
  split
  next lhs rhs hstmt =>
    have hs : (f.blockStmts b)[k]? = some (.assign lhs rhs) := by
      rw [blockStmts, getElem?_map, hid, map_some, hstmt]
    obtain ⟨id', hid', hget⟩ := mem_stmts_of_blockStmts hs rfl
    rw [hid] at hid'
    cases hid'
    split
    · exact hkeep
    next tmp htmp =>
    -- the key is built from the leaders after a copy was followed
    have hleaders := followCopy_sameValue hwf hssa hcopies h.leaders hget
    dsimp only
    split
    · exact ⟨hleaders, hmono, h.replaced⟩
    next expr hexpr =>
    have hkey : Keyed E f st₀ rhs tmp.ty expr := keyed_toValueExpr (fun t ht => hleaders t
      (.operand (mem_of_getElem? hget) (isNumbered_of_toValueExpr hexpr) ht)) hexpr
    split
    next leader hfind =>
      split
      · refine ⟨hleaders, hmono, forall_mem_append.2 ⟨h.replaced, forall_mem_singleton.2 ?_⟩⟩
        obtain ⟨e, he, rfl⟩ := map_eq_some_iff.1 hfind
        have hcond := find?_some he
        simp only [Bool.and_eq_true, beq_iff_eq] at hcond
        obtain ⟨j, rv, tmp', hsd, hpos, htmp', hkey'⟩ := h.table e (mem_of_find?_eq_some he)
        rw [hcond.1] at hkey'
        have hty : tmp'.ty = tmp.ty := hkey.ty_eq hkey'
        exact ⟨b, k, e.2.2, j, rhs, rv, tmp, tmp', expr, hid, hs, hsd,
          after_of_dominates hwf hcfg hdoms hcond.2 hpos, htmp, htmp', hty, hkey, hty ▸ hkey'⟩
      · exact ⟨hleaders, hmono, h.replaced⟩
    · refine ⟨hleaders, forall_mem_append.2 ⟨hmono, forall_mem_singleton.2 ?_⟩, h.replaced⟩
      exact ⟨k, rhs, tmp, hs, .inr ⟨rfl, Nat.lt_succ_self k⟩, htmp, hkey⟩
  · exact hkeep

lemma GvnInv.block (h : GvnInv E f st₀ b 0 gs) :
    GvnInv E f st₀ (b + 1) 0 (gvnBlock f doms gs b) := by
  -- the statements of the block one by one
  have hall : ∀ ids k gs, (f.blockStmtIds b).drop k = ids → GvnInv E f st₀ b k gs →
      ∃ k', GvnInv E f st₀ b k' (ids.foldl (gvnStmt f doms b) gs) := by
    intro ids
    induction ids with
    | nil => exact fun k gs _ h => ⟨k, h⟩
    | cons id ids ih =>
      intro k gs hdrop h
      have hid : (f.blockStmtIds b)[k]? = some id := by
        rw [← Nat.add_zero k, ← getElem?_drop, hdrop]
        rfl
      have hdrop' : (f.blockStmtIds b).drop (k + 1) = ids := by
        rw [← drop_drop, hdrop]
        rfl
      exact ih (k + 1) _ hdrop' (h.stmt hwf hssa hcopies hcfg hdoms hid)
  obtain ⟨k', hend⟩ := hall _ 0 gs rfl h
  refine ⟨hend.leaders, ?_, hend.replaced⟩
  intro e he
  obtain ⟨j, rv, tmp, hs, hpos, hrest⟩ := hend.table e he
  refine ⟨j, rv, tmp, hs, .inl ?_, hrest⟩
  rcases hpos with hlt | ⟨heq, -⟩
  · exact Nat.lt_succ_of_lt hlt
  · exact heq ▸ Nat.lt_succ_self _

lemma gvnWalk_justified : ∀ r ∈ (gvnWalk f doms).replacements, Justified E f st₀ r := by
  have hwalk : ∀ n, GvnInv E f st₀ n 0 ((List.range n).foldl (gvnBlock f doms) .start) := by
    intro n
    induction n with
    | zero =>
      exact ⟨fun t _ => SameValue.refl t, by simp [GvnState.start], by simp [GvnState.start]⟩
    | succ n ih =>
      rw [range_succ, foldl_append]
      exact ih.block hwf hssa hcopies hcfg hdoms
  exact (hwalk f.blocks.length).replaced

end Walk

/-! ## Rewritten statements -/

lemma getElem?_applyReplacements (stmts : List AmirStmt)
    (replacements : List (InstrId × TempId × TempId)) (id : InstrId) :
    (applyReplacements stmts replacements)[id]? = stmts[id]? ∨
      ∃ r ∈ replacements, r.1 = id ∧ (applyReplacements stmts replacements)[id]? =
        some (.assign r.2.1 (.use (.copy r.2.2))) := by
  unfold applyReplacements
  induction replacements generalizing stmts with
  | nil => exact .inl rfl
  | cons r rs ih =>
    rw [foldl_cons]
    rcases ih (stmts.set r.1 (.assign r.2.1 (.use (.copy r.2.2)))) with h | ⟨q, hq, h⟩
    · rw [h, getElem?_set]
      by_cases hid : r.1 = id
      · rw [if_pos hid]
        split
        · exact .inr ⟨r, mem_cons_self, hid, rfl⟩
        next hlt => exact .inl (by rw [getElem?_eq_none (hid ▸ not_lt.1 hlt)])
      · rw [if_neg hid]
        exact .inl rfl
    · exact .inr ⟨q, mem_cons_of_mem _ hq, h⟩

lemma blockStmts_applyReplacements {s s' : AmirStmt} (hs : (f.blockStmts b)[k]? = some s)
    (hs' : ({ f with stmts := applyReplacements f.stmts replacements }.blockStmts b)[k]? =
      some s') :
    s' = s ∨ ∃ r ∈ replacements, (f.blockStmtIds b)[k]? = some r.1 ∧
      s' = .assign r.2.1 (.use (.copy r.2.2)) := by
  obtain ⟨id, hid, hstmt⟩ := stmt_of_blockStmts hs
  obtain ⟨id', hid', hstmt'⟩ := stmt_of_blockStmts hs'
  have hids : (f.blockStmtIds b)[k]? = some id' := hid'
  rw [hid] at hids
  cases hids
  rw [stmt, List.getD] at hstmt hstmt'
  rcases getElem?_applyReplacements f.stmts replacements id with h | ⟨r, hr, rfl, h⟩
  · rw [h, hstmt] at hstmt'
    exact .inl hstmt'.symm
  · rw [h] at hstmt'
    exact .inr ⟨r, hr, hid, hstmt'.symm⟩

/-- Both the original statement and the copy that replaces it put the leader's value into
the target, and nothing else. -/
lemma Justified.exec (hwf : WellFormed f) (hssa : f.Ssa) {r : InstrId × TempId × TempId}
    (hfields : ReadsNoPointer E f r) (h : Justified E f st₀ r) (hreach : ReachesStmt E f st₀ b k st)
    (hid : (f.blockStmtIds b)[k]? = some r.1) {s : AmirStmt} (hs : (f.blockStmts b)[k]? = some s) :
    ∃ rv w vals, s = .assign r.2.1 rv ∧ rv.isEffect = false ∧ st.temps r.2.2 = some w ∧
      execStmt E f st s = .ok ((st.setTemp r.2.1 w).withTrace (st.trace ++ [(s, vals)])) ∧
      execStmt E f st (.assign r.2.1 (.use (.copy r.2.2))) = .ok ((st.setTemp r.2.1 w).withTrace
          (st.trace ++ [(.assign r.2.1 (.use (.copy r.2.2)), [w])])) := by
  obtain ⟨b', k', d, j, rv, rv', tmp, tmp', expr, hid', hs', hsd, hafter, htmp, htmp', hty, hkey,
    hkey'⟩ := h
  obtain ⟨rfl, rfl⟩ := hwf.position_unique hid hid'
  rw [hs] at hs'
  cases hs'
  have hb := hreach.reachable
  have hfield : ∀ (t : TempId) (b : BlockId) (k : Nat) (rv : AmirRvalue),
      t = r.2.1 ∨ t = r.2.2 → (f.blockStmts b)[k]? = some (.assign t rv) →
      ∀ base i, rv = .fieldAccess base i → pointerBase E f base = false := by
    rintro t b k rv ht hs base i rfl
    obtain ⟨id, -, hget⟩ := mem_stmts_of_blockStmts hs rfl
    exact hfields t base i ht (mem_of_getElem? hget)
  -- what the leader's statement established
  obtain ⟨vals', w, hvals', hw, v, hv, hconf⟩ :=
    hssa.available hwf hsd rfl
      (R := fun vals w => ∃ v, pureResult E tmp.ty rv' vals = .ok v ∧ E.conform tmp.ty v = .ok w)
      (fun st st' vals w _ hvals hexec hw => by
        obtain ⟨tmp₁, v, heap, htmp₁, hrv, hassign⟩ := execStmt_assign_ok hvals hexec hw
        rw [htmp'] at htmp₁
        cases htmp₁
        rw [hty, evalRvalue_keyed hkey' (hfield _ _ _ _ (.inr rfl) hsd) hvals] at hrv
        cases hres : pureResult E tmp.ty rv' vals with
        | error e =>
          rw [hres] at hrv
          cases hrv
        | ok v₁ =>
          rw [hres] at hrv
          cases hrv
          rw [hkey'.assignValue_eq.2, hty] at hassign
          exact ⟨v, rfl, hassign⟩) hreach hafter
  obtain ⟨vals, hvals, hres⟩ := pureResult_keyed hkey hkey' hreach
    (fun o ho => hssa.settled_use hb (.inl ⟨_, hs, ho⟩))
    (fun o ho => hssa.settled_operand hb hsd ho hafter) hvals'
  refine ⟨rv, w, vals, rfl, hkey.assignValue_eq.1, hw, ?_, ?_⟩
  · refine execStmt_ok.2 ⟨vals, st.setTemp r.2.1 w, hvals, applyStmt_assign_ok.2
      ⟨tmp, v, st.heap, w, htmp, ?_, ?_, rfl⟩, rfl⟩
    · rw [evalRvalue_keyed hkey (hfield _ _ _ _ (.inl rfl) hs) hvals, hres, hv]
      rfl
    · rw [hkey.assignValue_eq.2, hconf]
  · refine execStmt_ok.2 ⟨[w], st.setTemp r.2.1 w, ?_, applyStmt_assign_ok.2
      ⟨tmp, w, st.heap, w, htmp, rfl, ?_, rfl⟩, rfl⟩
    · exact evalOperands_singleton.2 ⟨w, (evalOperand_temp rfl).2 hw, rfl⟩
    · have : operandTy? f (.copy r.2.2) = some tmp.ty := by
        simp [operandTy?, htmp', hty]
      simp [assignValue, convert, this]

lemma rewritesInPlace_of_justified (hwf : WellFormed f) (hssa : f.Ssa)
    (hfields : ∀ r ∈ replacements, ReadsNoPointer E f r)
    (hjust : ∀ r ∈ replacements, Justified E f st₀ r) :
    RewritesInPlace E f { f with stmts := applyReplacements f.stmts replacements } st₀ False := by
  refine ⟨fun b => ?_, ?_, fun b st _ => .inr (congrArg Config.observe ?_)⟩
  · simp [blockStmts, blockStmtIds, block]
  · intro b k s s' st hreach hs hs'
    refine .inr ?_
    rcases blockStmts_applyReplacements hs hs' with rfl | ⟨r, hr, hid, rfl⟩
    · rfl
    obtain ⟨rv, w, vals, rfl, heff, -, hexec, hexec'⟩ :=
      (hjust r hr).exec hwf hssa (hfields r hr) hreach hid hs
    have hcopy : execStmt E { f with stmts := applyReplacements f.stmts replacements } st
        (.assign r.2.1 (.use (.copy r.2.2))) = _ :=
      (execStmt_congr (f := f) (by rfl) st _).trans hexec'
    rw [hexec, hcopy]
    refine congrArg Except.ok (State.observe_eq_iff.2 ⟨rfl, ?_⟩)
    simp only [State.withTrace_trace]
    rw [events_concat_assign _ _ rfl, events_concat_assign _ _ heff]
  · exact execTerminator_congr (f := f) (by rfl) (fun _ => by rfl) st _

/-! ## The pass preserves meaning -/

end Sound

/-! ## A leader behind a cast -/

/-- `u32`, `u8`. -/
def castTypes : TypeInterner := ⟨[.primitive .u32, .primitive .u8]⟩

def castEnv : Env where
  interner := castTypes
  pool := ⟨[]⟩
  host := Host.lengths
  frame := fun _ => false

/-- `let b = (a as T) as u32; let c = a + a; return b + b`, where `castTy` is the type id
of `T` and `_1` is `a`. -/
def doubledCast (castTy : TypeId) : AmirFunc :=
  let blocks : List AmirBasicBlock := [⟨0, .empty, ⟨0, 4⟩, .return⟩]
  { symbol := 0, returnType := 0, receiver := none, params := [1], locals := []
    temps := [⟨0, 0, true, false⟩, ⟨1, 0, true, false⟩, ⟨2, castTy, true, false⟩,
      ⟨3, 0, true, false⟩, ⟨4, 0, true, false⟩]
    blocks := blocks, blockParams := []
    stmts :=
      [ .assign 2 (.use (.copy 1)),
        .assign 3 (.use (.copy 2)),
        .assign 4 (.binary .add (.copy 1) (.copy 1)),
        .assign 0 (.binary .add (.copy 3) (.copy 3)) ]
    cfg := computeCfgEdges blocks }

def castCall : State Host.lengths :=
  .ofInputs (h := Host.lengths) (0 : Int) () [(1, .int 256)]

lemma doubledCast_valid (castTy : TypeId) (h : castTy < 2) :
    validateAmirFunc (doubledCast castTy) castTypes = [] ∧ (doubledCast castTy).Ssa ∧
      (doubledCast castTy).CfgCovers := by
  have hall : ∀ c < 2, validateAmirFunc (doubledCast c) castTypes = [] ∧
      isSsa (doubledCast c) = true := by
    decide
  have hcheck := hall castTy h
  have htargets := (wellFormed_of_validate hcheck.1).targets
  have hcfg := cfgCovers_of_compute (f := doubledCast castTy) rfl htargets
  exact ⟨hcheck.1, ssa_of_isSsa hcfg htargets hcheck.2, hcfg⟩

end Arandu.Mir
