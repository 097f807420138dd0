import Arandu.Amir.Frame
import Arandu.Amir.Validate

/-!
# Static single assignment

A function is in SSA form when every temp has one definition site and every use is
preceded by it: earlier in the same block, or in a strictly dominating block.

The run-time consequence is `Ssa.available`: what held of a statement's operands and its
result when the statement was executed last still holds of their current values at every
point the statement precedes. Every argument about values in this development goes
through it.
-/

namespace Arandu.Amir

open Arandu.Library List AmirFunc

/-! ## Definition sites and uses -/

/-- Where a temp receives its value: as an input of the function, as parameter number `i`
of block `b`, or from a statement of the table. -/
inductive DefSite where
  | input
  | param (b : BlockId) (i : Nat)
  | stmt (id : InstrId)
deriving DecidableEq

namespace AmirFunc

variable (f : AmirFunc) (t : TempId)

def DefinedAt : DefSite → Prop
  | .input => t ∈ f.params ∨ f.receiver = some t
  | .param b i => ∃ p, (f.blockParamsOf b)[i]? = some p ∧ p.id = t
  | .stmt id => ∃ s, f.stmts[id]? = some s ∧ s.def? = some t

/-- Position `k` of block `b` is position `j` of block `d`, a later one of that block, or
one in a block that `d` strictly dominates. -/
def After (d : BlockId) (j : Nat) (b : BlockId) (k : Nat) : Prop :=
  (d = b ∧ j ≤ k) ∨ (d ≠ b ∧ Dominates f.Edge 0 d b)

/-- The site comes before position `k` of block `b` on every path. -/
def Precedes : DefSite → BlockId → Nat → Prop
  | .input, _, _ => True
  | .param d _, b, _ => Dominates f.Edge 0 d b
  | .stmt id, b, k => ∃ d j, (f.blockStmtIds d)[j]? = some id ∧ f.After d (j + 1) b k

/-- Position `k` of block `b` reads `t`; the terminator stands after the last statement. -/
def UsedAt (b : BlockId) (k : Nat) : Prop :=
  (∃ s, (f.blockStmts b)[k]? = some s ∧ t ∈ operandTemps s.operands) ∨
    (k = (f.blockStmts b).length ∧ t ∈ operandTemps (f.block b).terminator.operands)

/-- Single assignment, and definitions precede uses. -/
structure Ssa : Prop where
  single : ∀ {t s s'}, f.DefinedAt t s → f.DefinedAt t s' → s = s'
  uses : ∀ {t b k}, Reachable f.Edge 0 b → f.UsedAt t b k → ∃ s, f.DefinedAt t s ∧ f.Precedes s b k

/-- Every definition of `t` precedes position `k` of block `b`. -/
def Settled (b : BlockId) (k : Nat) : Prop :=
  ∀ s, f.DefinedAt t s → f.Precedes s b k

end AmirFunc

variable {b : BlockId} {t : TempId} {s : AmirStmt} {j k : Nat} {id : InstrId} {d b' : BlockId}

section Sites

variable {f : AmirFunc}

lemma AmirFunc.stmt_of_blockStmts (h : (f.blockStmts b)[k]? = some s) :
    ∃ id, (f.blockStmtIds b)[k]? = some id ∧ f.stmt id = s := by
  rw [blockStmts, getElem?_map] at h
  exact Option.map_eq_some_iff.1 h

lemma AmirFunc.definedAt_stmt
    (hid : (f.blockStmtIds b)[k]? = some id) (hs : (f.blockStmts b)[k]? = some s)
    (hdef : s.def? = some t) : f.DefinedAt t (.stmt id) := by
  rw [blockStmts, getElem?_map, hid] at hs
  have hs : f.stmt id = s := by simpa using hs
  by_cases hlt : id < f.stmts.length
  · exact ⟨s, by rw [getElem?_eq_getElem hlt, ← stmt_eq_getElem hlt, hs], hdef⟩
  · rw [stmt, List.getD, getElem?_eq_none (not_lt.1 hlt)] at hs
    subst hs
    cases hdef

lemma WellFormed.position_unique (hwf : WellFormed f) {k' : Nat}
    (h : (f.blockStmtIds b)[k]? = some id) (h' : (f.blockStmtIds b')[k']? = some id) :
    b = b' ∧ k = k' := by
  obtain rfl := hwf.stmtOwner b b' id (mem_of_getElem? h) (mem_of_getElem? h')
  refine ⟨rfl, ?_⟩
  obtain ⟨hk, -⟩ := List.getElem?_eq_some_iff.1 h
  exact (getElem?_inj hk (DenseRange.nodup_iterIds _)).1 (h.trans h'.symm)

lemma AmirFunc.After.reachable (h : f.After d j b k) (hb : Reachable f.Edge 0 b) :
    Reachable f.Edge 0 d := by
  rcases h with ⟨rfl, -⟩ | ⟨-, hdom⟩
  · exact hb
  · exact hdom.reachable hb

lemma AmirFunc.After.of_succ (h : f.After d (j + 1) b k) : f.After d j b k := by
  rcases h with ⟨hdb, hle⟩ | hdom
  · exact .inl ⟨hdb, Nat.le_of_succ_le hle⟩
  · exact .inr hdom

lemma AmirFunc.Precedes.trans {s : DefSite} (hb : Reachable f.Edge 0 b) (h : f.Precedes s d j)
    (hd : f.After d j b k) : f.Precedes s b k := by
  cases s with
  | input => trivial
  | param e i =>
    rcases hd with ⟨rfl, -⟩ | ⟨-, hdom⟩
    · exact h
    · exact Dominates.trans h hdom
  | stmt id =>
    obtain ⟨e, i, hid, hpos⟩ := h
    refine ⟨e, i, hid, ?_⟩
    rcases hpos with ⟨rfl, hi⟩ | ⟨hne, hdom⟩
    · rcases hd with ⟨rfl, hle⟩ | hdom
      · exact .inl ⟨rfl, by omega⟩
      · exact .inr hdom
    rcases hd with ⟨rfl, -⟩ | ⟨hne', hdom'⟩
    · exact .inr ⟨hne, hdom⟩
    · refine .inr ⟨?_, hdom.trans hdom'⟩
      rintro rfl
      exact hne (hdom.antisymm hb hdom')

lemma AmirFunc.Settled.trans (h : f.Settled t d j) (hb : Reachable f.Edge 0 b)
    (hd : f.After d j b k) : f.Settled t b k :=
  fun s hs => (h s hs).trans hb hd

lemma AmirFunc.Ssa.settled_use (hssa : f.Ssa)
    (hb : Reachable f.Edge 0 b) (huse : f.UsedAt t b k) : f.Settled t b k := by
  intro s hs
  obtain ⟨s', hs', hpre⟩ := hssa.uses hb huse
  rw [hssa.single hs hs']
  exact hpre

lemma AmirFunc.Ssa.settled_def (hssa : f.Ssa)
    (hs : (f.blockStmts b)[k]? = some s) (hdef : s.def? = some t) : f.Settled t b (k + 1) := by
  obtain ⟨id, hid, -⟩ := stmt_of_blockStmts hs
  intro s' hs'
  rw [hssa.single hs' (definedAt_stmt hid hs hdef)]
  exact ⟨b, k, hid, .inl ⟨rfl, le_rfl⟩⟩

lemma AmirFunc.Settled.position (ht : f.Settled t b k)
    (hid : f.stmts[id]? = some s) (hdef : s.def? = some t) :
    ∃ d j, (f.blockStmts d)[j]? = some s ∧ f.After d (j + 1) b k := by
  obtain ⟨d, j, hj, hpos⟩ := ht (.stmt id) ⟨s, hid, hdef⟩
  refine ⟨d, j, ?_, hpos⟩
  obtain ⟨hlt, hget⟩ := List.getElem?_eq_some_iff.1 hid
  rw [blockStmts, getElem?_map, hj, Option.map_some, stmt_eq_getElem hlt, hget]

lemma AmirFunc.mem_stmts_of_blockStmts
    (hs : (f.blockStmts b)[k]? = some s) (hdef : s.def? = some t) :
    ∃ id, (f.blockStmtIds b)[k]? = some id ∧ f.stmts[id]? = some s := by
  obtain ⟨id, hid, hstmt⟩ := stmt_of_blockStmts hs
  obtain ⟨s', hget, -⟩ := definedAt_stmt hid hs hdef
  obtain ⟨hlt, hs'⟩ := List.getElem?_eq_some_iff.1 hget
  refine ⟨id, hid, ?_⟩
  rw [hget, ← hs', ← stmt_eq_getElem hlt, hstmt]

lemma AmirFunc.Ssa.settled_operand (hssa : f.Ssa) {o : TempId} (hb : Reachable f.Edge 0 b)
    (hs : (f.blockStmts d)[j]? = some s) (ho : o ∈ operandTemps s.operands)
    (hpos : f.After d (j + 1) b k) : f.Settled o b k :=
  (hssa.settled_use (hpos.reachable hb) (.inl ⟨s, hs, ho⟩)).trans hb hpos.of_succ

/-! ## Settled temps are not defined again -/

lemma AmirFunc.Settled.stmt_def?_ne (hwf : WellFormed f) (h : f.Settled t d j)
    (hb : Reachable f.Edge 0 b) (hafter : f.After d j b k) (hs : (f.blockStmts b)[k]? = some s) :
    s.def? ≠ some t := by
  intro hdef
  obtain ⟨id, hid, -⟩ := stmt_of_blockStmts hs
  obtain ⟨e, i, hid', hpos⟩ := h _ (definedAt_stmt hid hs hdef)
  obtain ⟨rfl, rfl⟩ := hwf.position_unique hid hid'
  rcases hpos with ⟨rfl, hlt⟩ | ⟨hne, hdom⟩
  · rcases hafter with ⟨-, hle⟩ | ⟨hne, -⟩
    · omega
    · exact hne rfl
  · rcases hafter with ⟨rfl, -⟩ | ⟨-, hdom'⟩
    · exact hne rfl
    · exact hne (hdom.antisymm hb hdom')

lemma AmirFunc.Settled.not_param (h : f.Settled t d j) (hb : Reachable f.Edge 0 b) (hne : d ≠ b)
    (hdom : Dominates f.Edge 0 d b) : t ∉ (f.blockParamsOf b).map BlockParam.id := by
  intro hmem
  obtain ⟨p, hp, rfl⟩ := mem_map.1 hmem
  obtain ⟨i, hi⟩ := getElem?_of_mem hp
  have hbd : Dominates f.Edge 0 b d := h (.param b i) ⟨p, hi, rfl⟩
  exact hne (hbd.antisymm hb hdom).symm

end Sites

/-! ## Settled temps keep their value -/

section Runs

variable {E : Env} {f : AmirFunc} {st₀ : State E.host}

variable {st st' : State E.host}

lemma ReachesBlock.step (h : ReachesBlock E f st₀ b st)
    (hstep : step E f (.running b st) = .running b' st') : ReachesBlock E f st₀ b' st' := by
  obtain ⟨n, hn⟩ := h
  exact ⟨n + 1, by rw [runN_succ, hn, hstep]⟩

lemma step_edge (h : step E f (.running b st) = .running b' st') : f.Edge b b' := by
  obtain ⟨st₁, args, -, hmem, -⟩ := step_running h
  exact AmirTerminator.mem_targets_of_mem_edges hmem

lemma ReachesBlock.reachable (h : ReachesBlock E f st₀ b st) : Reachable f.Edge 0 b := by
  refine ReachesBlock.induction (P := fun b _ => Reachable f.Edge 0 b) Reachable.start ?_ h
  intro b st b' st' _ ih hstep
  exact ih.step (step_edge hstep)

lemma ReachesStmt.reachable (h : ReachesStmt E f st₀ b k st) : Reachable f.Edge 0 b := by
  obtain ⟨stb, hstb, -⟩ := h
  exact hstb.reachable

lemma runStmts_take_split {k' : Nat} (hk : k ≤ k') :
    runStmts E f ((f.blockStmts b).take k') st = .ok st' ↔
      ∃ st₁, runStmts E f ((f.blockStmts b).take k) st = .ok st₁ ∧
        runStmts E f (((f.blockStmts b).drop k).take (k' - k)) st₁ = .ok st' := by
  have hsplit : (f.blockStmts b).take k' =
      (f.blockStmts b).take k ++ ((f.blockStmts b).drop k).take (k' - k) := by
    rw [← take_add]
    congr 1
    omega
  rw [hsplit]
  exact runStmts_append_ok

section

variable (hwf : WellFormed f) (h : f.Settled t d j) (hb : Reachable f.Edge 0 b)
include hwf h hb

lemma AmirFunc.Settled.stmts_temps {m : Nat} (hafter : f.After d j b k)
    (hrun : runStmts E f (((f.blockStmts b).drop k).take m) st = .ok st') :
    st'.temps t = st.temps t := by
  refine runStmts_temps hrun ?_
  intro s hs
  obtain ⟨i, hi⟩ := getElem?_of_mem hs
  rw [getElem?_take] at hi
  split at hi
  · rw [getElem?_drop] at hi
    refine h.stmt_def?_ne hwf hb ?_ hi
    rcases hafter with ⟨rfl, hle⟩ | hdom
    · exact .inl ⟨rfl, by omega⟩
    · exact .inr hdom
  · cases hi

lemma AmirFunc.Settled.prefix_temps (hne : d ≠ b) (hdom : Dominates f.Edge 0 d b)
    (hrun : runStmts E f ((f.blockStmts b).take k) st = .ok st') : st'.temps t = st.temps t := by
  refine h.stmts_temps hwf hb (k := 0) (m := k) (.inr ⟨hne, hdom⟩) ?_
  simpa using hrun

/-- A temp settled by `d` keeps its value along a block step below `d`. -/
lemma AmirFunc.Settled.step_temps (hne : d ≠ b) (hdom : Dominates f.Edge 0 d b) (hne' : d ≠ b')
    (hdom' : Dominates f.Edge 0 d b') (hstep : step E f (.running b st) = .running b' st') :
    st'.temps t = st.temps t := by
  obtain ⟨st₁, args, hrun, hmem, -, hedge⟩ := step_running hstep
  have hb' : Reachable f.Edge 0 b' := hb.step (step_edge hstep)
  rw [hedge.temps (h.not_param hb' hne' hdom')]
  refine h.prefix_temps hwf hb hne hdom (k := (f.blockStmts b).length) ?_
  rwa [take_length]

end

/-! ## Equations survive to every point their statement precedes -/

/-- What the last execution of statement `s`, which defines `t`, established between its
operands and its result, read off the current state. -/
def Established (E : Env) (s : AmirStmt) (t : TempId)
    (R : List E.host.Val → E.host.Val → Prop) (st : State E.host) : Prop :=
  ∃ vals w, evalOperands E st s.operands = .ok vals ∧ st.temps t = some w ∧ R vals w

lemma Established.congr {R : List E.host.Val → E.host.Val → Prop} (h : Established E s t R st)
    (ht : st'.temps t = st.temps t)
    (hops : ∀ o ∈ operandTemps s.operands, st'.temps o = st.temps o) : Established E s t R st' := by
  obtain ⟨vals, w, hvals, hw, hR⟩ := h
  refine ⟨vals, w, ?_, by rw [ht, hw], hR⟩
  rw [← hvals]
  exact evalOperands_congr fun op hop u hu => hops u (mem_operandTemps.2 ⟨op, hop, hu⟩)

lemma settled_of_mem (hssa : f.Ssa) {o : TempId} (hd : Reachable f.Edge 0 d)
    (hs : (f.blockStmts d)[j]? = some s) (hdef : s.def? = some t)
    (ho : o = t ∨ o ∈ operandTemps s.operands) : f.Settled o d (j + 1) := by
  rcases ho with rfl | ho
  · exact hssa.settled_def hs hdef
  · exact (hssa.settled_use hd (.inl ⟨s, hs, ho⟩)).trans hd (.inl ⟨rfl, Nat.le_succ j⟩)

section Available

variable (hwf : WellFormed f) (hssa : f.Ssa) {d : BlockId} {j : Nat} {s : AmirStmt} {t : TempId}
  {R : List E.host.Val → E.host.Val → Prop} (hs : (f.blockStmts d)[j]? = some s)
  (hdef : s.def? = some t)
  (hR : ∀ st st' vals w, ReachesStmt E f st₀ d j st → evalOperands E st s.operands = .ok vals →
    execStmt E f st s = .ok st' → st'.temps t = some w → R vals w)

include hwf hssa hs hdef hR

lemma established_in_block {stb : State E.host} (hreach : ReachesBlock E f st₀ d stb) (hk : j < k)
    (hrun : runStmts E f ((f.blockStmts d).take k) stb = .ok st) : Established E s t R st := by
  have hd : Reachable f.Edge 0 d := hreach.reachable
  obtain ⟨stj, hstj, hrest⟩ := (runStmts_take_split (le_of_lt hk)).1 hrun
  obtain ⟨hlt, hget⟩ := List.getElem?_eq_some_iff.1 hs
  have hcons : ((f.blockStmts d).drop j).take (k - j) =
      s :: ((f.blockStmts d).drop (j + 1)).take (k - (j + 1)) := by
    rw [drop_eq_getElem_cons hlt, hget, show k - j = (k - (j + 1)) + 1 by omega,
      take_succ_cons]
  rw [hcons] at hrest
  obtain ⟨st₁, hexec, htail⟩ := runStmts_cons_ok.1 hrest
  obtain ⟨vals, -, hvals, -⟩ := execStmt_ok.1 hexec
  obtain ⟨-, w, hw⟩ := execStmt_defines hexec hdef
  have hafter : Established E s t R st₁ := by
    refine ⟨vals, w, ?_, hw, hR stj st₁ vals w ⟨stb, hreach, hstj⟩ hvals hexec hw⟩
    rw [← hvals]
    refine evalOperands_congr fun op hop u hu => execStmt_temps hexec ?_
    -- the statement does not read the temp it defines
    have huse : u ∈ operandTemps s.operands := mem_operandTemps.2 ⟨op, hop, hu⟩
    exact (hssa.settled_use hd (.inl ⟨s, hs, huse⟩)).stmt_def?_ne hwf hd
      (.inl ⟨rfl, Nat.le_refl j⟩) hs
  have hkeep : ∀ o, o = t ∨ o ∈ operandTemps s.operands → st.temps o = st₁.temps o :=
    fun o ho => (settled_of_mem hssa hd hs hdef ho).stmts_temps hwf hd
      (.inl ⟨rfl, le_rfl⟩) htail
  exact hafter.congr (hkeep t (.inl rfl)) fun o ho => hkeep o (.inr ho)

lemma established_at_entry
    (hreach : ReachesBlock E f st₀ b st) (hne : d ≠ b) (hdom : Dominates f.Edge 0 d b) :
    Established E s t R st := by
  refine ReachesBlock.induction
    (P := fun b st => d ≠ b → Dominates f.Edge 0 d b → Established E s t R st) ?_ ?_ hreach
    hne hdom
  · intro hne hdom
    exact absurd hdom.eq_entry hne
  intro b st b' st' hreach ih hstep hne' hdom'
  have hd : Reachable f.Edge 0 d := hdom'.reachable (hreach.step hstep).reachable
  have hdomb : Dominates f.Edge 0 d b := (hdom'.pred (step_edge hstep)).resolve_left hne'
  by_cases hdb : d = b
  · subst hdb
    obtain ⟨st₁, args, hrun, -, -, hedge⟩ := step_running hstep
    have hend : Established E s t R st₁ := by
      refine established_in_block hwf hssa hs hdef hR hreach (lt_of_getElem? hs) ?_
      rwa [take_length]
    have hkeep : ∀ o, o = t ∨ o ∈ operandTemps s.operands → st'.temps o = st₁.temps o :=
      fun o ho => hedge.temps ((settled_of_mem hssa hd hs hdef ho).not_param
        (hreach.step hstep).reachable hne' hdom')
    exact hend.congr (hkeep t (.inl rfl)) fun o ho => hkeep o (.inr ho)
  · have hkeep : ∀ o, o = t ∨ o ∈ operandTemps s.operands → st'.temps o = st.temps o :=
      fun o ho => (settled_of_mem hssa hd hs hdef ho).step_temps hwf hreach.reachable hdb hdomb
        hne' hdom' hstep
    exact (ih hdb hdomb).congr (hkeep t (.inl rfl)) fun o ho => hkeep o (.inr ho)

/-- What every execution of a statement establishes between its operands and its result
holds at every point the statement precedes. -/
lemma AmirFunc.Ssa.available (hreach : ReachesStmt E f st₀ b k st) (hpos : f.After d (j + 1) b k) :
    Established E s t R st := by
  obtain ⟨stb, hstb, hrun⟩ := hreach
  rcases hpos with ⟨rfl, hlt⟩ | ⟨hne, hdom⟩
  · exact established_in_block hwf hssa hs hdef hR hstb hlt hrun
  have hd : Reachable f.Edge 0 d := hdom.reachable hstb.reachable
  have hkeep : ∀ o, o = t ∨ o ∈ operandTemps s.operands → st.temps o = stb.temps o :=
    fun o ho => (settled_of_mem hssa hd hs hdef ho).prefix_temps hwf hstb.reachable hne hdom hrun
  exact (established_at_entry hwf hssa hs hdef hR hstb hne hdom).congr (hkeep t (.inl rfl))
    fun o ho => hkeep o (.inr ho)

end Available

/-- What executing an addition or comparison establishes. -/
def Computes (E : Env) (f : AmirFunc) (op : BinaryOp) (t : TempId) (vals : List E.host.Val)
    (w : E.host.Val) : Prop :=
  ∃ tmp raw a b, f.temps[t]? = some tmp ∧ vals = [a, b] ∧
    E.host.evalBinary (E.kind tmp.ty).intShape? op tmp.ty a b = .ok raw ∧
    E.conform tmp.ty raw = .ok w

lemma computes_binary {op : BinaryOp} {x y : AmirOperand} {vals : List E.host.Val} {w : E.host.Val}
    (hvals : evalOperands E st (AmirStmt.assign t (.binary op x y)).operands = .ok vals)
    (hexec : execStmt E f st (.assign t (.binary op x y)) = .ok st') (hw : st'.temps t = some w) :
    Computes E f op t vals w := by
  obtain ⟨tmp, v, heap, htmp, hrv, hassign⟩ := execStmt_assign_ok hvals hexec hw
  obtain ⟨a, b, -, -, rfl⟩ := evalOperands_pair.1 hvals
  obtain ⟨raw, hraw, heq⟩ := Res.bind_eq_ok.1 hrv
  cases heq
  exact ⟨tmp, v, a, b, htmp, rfl, hraw, hassign⟩

/-- An addition or comparison that has been executed still holds of the temps it was about. -/
lemma computed_binary (hwf : WellFormed f) (hssa : f.Ssa) {op : BinaryOp} {x y : AmirOperand}
    {d : BlockId} {j : Nat} (hj : (f.blockStmts d)[j]? = some (.assign t (.binary op x y)))
    (hreach : ReachesStmt E f st₀ b k st) (hafter : f.After d (j + 1) b k) :
    ∃ tmp raw p q w, f.temps[t]? = some tmp ∧ st.temps t = some w ∧
      evalOperand E st x = .ok p ∧ evalOperand E st y = .ok q ∧
      E.host.evalBinary (E.kind tmp.ty).intShape? op tmp.ty p q = .ok raw ∧
      E.conform tmp.ty raw = .ok w := by
  obtain ⟨vals, w, hvals, hw, tmp, raw, p, q, htmp, rfl, hraw, hconform⟩ :=
    hssa.available hwf hj rfl (R := Computes E f op t)
      (fun _ _ _ _ _ hvals hexec hw => computes_binary hvals hexec hw) hreach hafter
  obtain ⟨p', q', hp, hq, heq⟩ := evalOperands_pair.1 hvals
  cases heq
  exact ⟨tmp, raw, p, q, w, htmp, hw, hp, hq, hraw, hconform⟩

end Runs

end Arandu.Amir
