import Arandu.Amir.Agree

/-!
# Observable behaviour and statement-by-statement rewriting

What an observer sees of a run is the sequence of calls, stores, frees, destroys and
arena operations with their operand values, and how the run ends. Pure assignments stay
in the trace but are no events.

`runN_observe` is the rule for passes that rewrite statements and terminators in place:
if, in every state the original run reaches, each rewritten statement and terminator does
what the original one does, then both functions are indistinguishable block by block.
-/

namespace Arandu.Amir

open Arandu.Library Config Res

/-! ## Events -/

/-- Statements an observer sees. -/
def AmirStmt.isObservable : AmirStmt → Bool
  | .assign _ rv => rv.isEffect
  | .nop => false
  | _ => true

/-- The events of a trace. -/
def events {h : Host} (trace : Trace h) : Trace h := trace.filter fun e => e.1.isObservable

variable {h : Host}

lemma events_concat_assign (trace : Trace h) (t : TempId) {rv : AmirRvalue}
    (hrv : rv.isEffect = false) (vals : List h.Val) :
    events (trace ++ [(.assign t rv, vals)]) = events trace := by
  simp [events, AmirStmt.isObservable, hrv]

/-- The state with its trace reduced to events. -/
def State.observe {h : Host} (st : State h) : State h := { st with trace := events st.trace }

def Config.observe {h : Host} : Config h → Config h
  | .running b st => .running b st.observe
  | .halted o st => .halted o st.observe

def State.withTrace {h : Host} (st : State h) (trace : Trace h) : State h :=
  { st with trace := trace }

@[simp] lemma State.withTrace_trace (st : State h) (trace : Trace h) :
    (st.withTrace trace).trace = trace := rfl

/-! ## States that look alike -/

section Alike

variable {E : Env} {f f' : AmirFunc} {st st' : State E.host}

lemma State.observe_eq_iff {st st' : State h} : st'.observe = st.observe ↔
      st' = st.withTrace st'.trace ∧ events st'.trace = events st.trace := by
  cases st
  cases st'
  simp only [State.observe, State.withTrace, State.mk.injEq]
  constructor
  · rintro ⟨rfl, rfl, rfl, htrace⟩
    exact ⟨⟨rfl, rfl, rfl, trivial⟩, htrace⟩
  · rintro ⟨⟨rfl, rfl, rfl, -⟩, htrace⟩
    exact ⟨rfl, rfl, rfl, htrace⟩

lemma observe_eq_iff_agree : st'.observe = st.observe ↔
    Agree (fun _ => True) (fun _ => True) AmirStmt.isObservable st st' := by
  constructor
  · intro h
    obtain ⟨heq, hevents⟩ := State.observe_eq_iff.1 h
    rw [heq]
    exact ⟨fun _ _ => rfl, rfl, fun _ _ => rfl, hevents⟩
  · intro h
    refine State.observe_eq_iff.2 ⟨?_, h.events⟩
    cases st'
    have htemps := funext fun t => h.temps t trivial
    have hslots := funext fun l => h.slots l trivial
    simp only [State.withTrace, State.mk.injEq]
    exact ⟨htemps, h.heap, hslots, trivial⟩

lemma execStmt_observe (h : st'.observe = st.observe) (s : AmirStmt) :
    (execStmt E f st' s).map State.observe = (execStmt E f st s).map State.observe := by
  have hrel := (observe_eq_iff_agree.1 h).execStmt (f := f) (s := s) (fun _ _ => trivial)
    fun _ _ => trivial
  generalize execStmt E f st s = x at hrel
  generalize execStmt E f st' s = x' at hrel
  cases hrel with
  | ok hnext => exact congrArg Except.ok (observe_eq_iff_agree.2 hnext)
  | error e => rfl

lemma execTerminator_observe (h : st'.observe = st.observe) (term : AmirTerminator) :
    (execTerminator E f st' term).observe = (execTerminator E f st term).observe := by
  have hrel : Rel (Agree (fun _ => True) (fun _ => True) AmirStmt.isObservable)
      (execTerminator E f st term) (execTerminator E f st' term) :=
    (observe_eq_iff_agree.1 h).execTerminator (fun _ _ => trivial) fun _ => trivial
  generalize execTerminator E f st term = c at hrel
  generalize execTerminator E f st' term = c' at hrel
  cases hrel with
  | running b hnext => exact congrArg (running b) (observe_eq_iff_agree.2 hnext)
  | halted o hnext => exact congrArg (halted o) (observe_eq_iff_agree.2 hnext)

lemma Res.rel_observe {x x' : Res (State E.host)} (h : x'.map State.observe = x.map State.observe) :
    Rel (fun st st' => st'.observe = st.observe) x x' := by
  cases x with
  | error e =>
    cases x' with
    | error e' => cases h; exact .error e
    | ok st' => cases h
  | ok st =>
    cases x' with
    | error e' => cases h
    | ok st' => exact .ok (Except.ok.inj h)

lemma Config.rel_observe {c c' : Config E.host} :
    Rel (fun st st' => st'.observe = st.observe) c c' ↔ c'.observe = c.observe := by
  constructor
  · intro h
    cases h with
    | running b h => exact congrArg (running b) h
    | halted o h => exact congrArg (halted o) h
  · intro h
    cases c <;> cases c' <;> simp only [observe, reduceCtorEq, running.injEq,
      halted.injEq] at h
    · obtain ⟨rfl, h⟩ := h
      exact .running _ h
    · obtain ⟨rfl, h⟩ := h
      exact .halted _ h

end Alike

/-! ## Rewriting in place -/

section Rewrite

variable {E : Env} {f f' : AmirFunc} {st₀ : State E.host} {lax : Prop}

/-- A function whose statements and terminators do, in every state the original reaches,
what the original ones do. -/
structure RewritesInPlace (E : Env) (f f' : AmirFunc) (st₀ : State E.host) (lax : Prop) :
    Prop where
  length : ∀ b, (f'.blockStmts b).length = (f.blockStmts b).length
  stmts : ∀ b k s s' st, ReachesStmt E f st₀ b k st → (f.blockStmts b)[k]? = some s →
    (f'.blockStmts b)[k]? = some s' →
    (lax ∧ execStmt E f st s = .error .stuck) ∨
      (execStmt E f' st s').map State.observe = (execStmt E f st s).map State.observe
  terms : ∀ b st, ReachesStmt E f st₀ b (f.blockStmts b).length st →
    (lax ∧ (execTerminator E f st (f.block b).terminator).isStuck) ∨
      (execTerminator E f' st (f'.block b).terminator).observe =
        (execTerminator E f st (f.block b).terminator).observe

lemma runN_observe (h : RewritesInPlace E f f' st₀ lax) (n : Nat) :
    (lax ∧ (runN E f n (.running 0 st₀)).isStuck) ∨
      (runN E f' n (.running 0 st₀)).observe = (runN E f n (.running 0 st₀)).observe := by
  have hstep : ∀ b st st', ReachesBlock E f st₀ b st → st'.observe = st.observe →
      (lax ∧ (step E f (.running b st)).isStuck) ∨
        Rel (fun st st' => st'.observe = st.observe) (step E f (.running b st))
          (step E f' (.running b st')) := by
    intro b st st' hreach halike
    refine step_rel (runStmts_rel (h.length b) halike ?_) ?_
    · intro k s s' stk stk' hs hs' hrun halike
      refine (h.stmts b k s s' stk ⟨st, hreach, hrun⟩ hs hs').imp_right fun heq => ?_
      exact rel_observe ((execStmt_observe halike s').trans heq)
    intro st₁ st₁' hrun halike
    have hend : ReachesStmt E f st₀ b (f.blockStmts b).length st₁ :=
      ⟨st, hreach, by rwa [List.take_length]⟩
    refine (h.terms b st₁ hend).imp_right fun heq => ?_
    exact rel_observe.2 ((execTerminator_observe halike _).trans heq)
  exact (runN_rel (by rfl) hstep n).imp_right rel_observe.1

end Rewrite

/-! ## Literals added by a pass -/

section Literals

variable {E : Env} {f : AmirFunc} {pool : AmirLiteralPool}

/-- Over the larger pool a computation is the same, or the original has no meaning. -/
lemma Res.stuckOr_bind {α β : Type} {x y : Res α} {k k' : α → Res β}
    (h : x = .error .stuck ∨ y = x) (hk : ∀ a, k a = .error .stuck ∨ k' a = k a) :
    (x >>= k) = .error .stuck ∨ (y >>= k') = (x >>= k) := by
  rcases h with rfl | rfl
  · exact .inl rfl
  · cases y with
    | error e => exact .inr rfl
    | ok a => exact hk a

section

variable (hpool : E.pool.Extends pool)
include hpool

lemma constValue_withPool (c : AmirConstant) :
    constValue E c = .error .stuck ∨ constValue (E.withPool pool) c = constValue E c := by
  cases c with
  | pool id =>
    simp only [constValue]
    cases hget : E.pool.get? id with
    | none => exact .inl rfl
    | some e => exact .inr (by rw [hpool.get? hget])
  | bool b | nil => exact .inr rfl

lemma evalOperand_withPool (st : State E.host) (op : AmirOperand) :
    evalOperand E st op = .error .stuck ∨
      evalOperand (E.withPool pool) st op = evalOperand E st op := by
  have htemp : ∀ t, readTemp (E.withPool pool) st t = readTemp E st t := by
    intro t
    unfold readTemp
    cases st.temps t <;> rfl
  cases op with
  | constant c => exact constValue_withPool hpool c
  | copy t | move t => exact .inr (htemp t)
  | _ => exact .inr rfl

lemma evalOperands_withPool (st : State E.host) (ops : List AmirOperand) :
    evalOperands E st ops = .error .stuck ∨
      evalOperands (E.withPool pool) st ops = evalOperands E st ops := by
  induction ops with
  | nil => exact .inr rfl
  | cons op ops ih =>
    refine stuckOr_bind (evalOperand_withPool hpool st op) fun v => ?_
    exact stuckOr_bind ih fun vs => .inr rfl

end

lemma convert_withPool (tmp : AmirTemp) (op : AmirOperand) (v : E.host.Val) :
    convert (E.withPool pool) f tmp op v = convert E f tmp op v := by
  cases v <;> rfl

lemma readRvalue_withPool (st : State E.host) (ty : TypeId) (rv : AmirRvalue)
    (vals : List E.host.Val) :
    readRvalue (E.withPool pool) f st ty rv vals = readRvalue E f st ty rv vals := by
  cases rv with
  | unary op x => cases op <;> rcases vals with _ | ⟨a, _ | ⟨b, vals⟩⟩ <;> rfl
  | indexAccess x y k =>
    rcases vals with _ | ⟨a, _ | ⟨b, _ | ⟨c, vals⟩⟩⟩ <;> first | rfl | (cases b <;> cases a <;> rfl)
  | binary op x y => rcases vals with _ | ⟨a, _ | ⟨b, _ | ⟨c, vals⟩⟩⟩ <;> rfl
  | len x =>
    rcases vals with _ | ⟨a, _ | ⟨b, vals⟩⟩ <;> first | rfl | (cases a <;> rfl)
  | _ => rcases vals with _ | ⟨a, _ | ⟨b, vals⟩⟩ <;> rfl

lemma applyStmt_withPool (st : State E.host) (s : AmirStmt) (vals : List E.host.Val) :
    applyStmt (E.withPool pool) f st s vals = applyStmt E f st s vals := by
  cases s with
  | assign lhs rv =>
    have hvalue : ∀ tmp v, assignValue (E.withPool pool) f tmp rv v = assignValue E f tmp rv v := by
      intro tmp v
      cases rv with
      | use op => exact @convert_withPool E f pool tmp op v
      | _ => rfl
    simp only [applyStmt, Amir.evalRvalue, readRvalue_withPool, hvalue]
  | store p op =>
    simp only [applyStmt]
    cases vals.getLast? <;> rfl
  | call lhs c args => cases lhs <;> rcases vals with _ | ⟨a, vals⟩ <;> rfl
  | destroy p =>
    change (E.host.destroy (p.mapOperands fun _ => .constant .nil) vals st.heap
      (slotOf E st p.localId) >>= _) = (_ >>= _)
    cases E.host.destroy (p.mapOperands fun _ => .constant .nil) vals st.heap
      (slotOf E st p.localId) with
    | error e => rfl
    | ok hs => rcases hs with ⟨heap, _ | slot⟩ <;> rfl
  | free op => rcases vals with _ | ⟨a, _ | ⟨b, vals⟩⟩ <;> rfl
  | _ => rfl

variable (hpool : E.pool.Extends pool)
include hpool

section

variable (st : State E.host)

lemma execStmt_withPool (s : AmirStmt) :
    execStmt E f st s = .error .stuck ∨ execStmt (E.withPool pool) f st s = execStmt E f st s := by
  refine stuckOr_bind (evalOperands_withPool hpool st s.operands) fun vals => ?_
  exact .inr (by rw [applyStmt_withPool])

lemma paramValues_withPool (ps : List BlockParam) (ops : List AmirOperand) :
    paramValues E f st ps ops = .error .stuck ∨
      paramValues (E.withPool pool) f st ps ops = paramValues E f st ps ops := by
  induction ps generalizing ops with
  | nil => cases ops <;> exact .inr rfl
  | cons p ps ih =>
    cases ops with
    | nil => exact .inr rfl
    | cons op ops =>
      simp only [paramValues]
      cases f.temps[p.id]? with
      | none => exact .inr rfl
      | some tmp =>
        refine stuckOr_bind (evalOperand_withPool hpool st op) fun v => ?_
        refine stuckOr_bind (.inr (convert_withPool tmp op v)) fun w => ?_
        exact stuckOr_bind (ih ops) fun ws => .inr rfl

lemma jump_withPool (t : BlockId) (args : List AmirOperand) :
    (jump E f st t args).isStuck ∨ jump (E.withPool pool) f st t args = jump E f st t args := by
  unfold jump
  rcases paramValues_withPool hpool st (f.blockParamsOf t) args with h | h
  · exact .inl (by rw [h]; trivial)
  · refine .inr ?_
    rw [h]
    cases paramValues E f st (f.blockParamsOf t) args <;> rfl

lemma execTerminator_withPool (term : AmirTerminator) :
    (execTerminator E f st term).isStuck ∨
      execTerminator (E.withPool pool) f st term = execTerminator E f st term := by
  cases term with
  | «return» | unreachable => exact .inr rfl
  | goto t args => exact jump_withPool hpool st t args
  | branch c t ta e fa =>
    simp only [execTerminator]
    rcases evalOperand_withPool hpool st c with h | h
    · exact .inl (by rw [h]; trivial)
    rw [h]
    split
    · exact jump_withPool hpool st t ta
    · exact jump_withPool hpool st e fa
    · exact .inr rfl
    · exact .inr rfl
  | switchInt d ts o =>
    simp only [execTerminator]
    rcases evalOperand_withPool hpool st d with h | h
    · exact .inl (by rw [h]; trivial)
    rw [h]
    split
    · split
      · exact jump_withPool hpool st _ _
      · exact jump_withPool hpool st _ _
    · exact .inr rfl
    · exact .inr rfl
  | suspend fu r args =>
    simp only [execTerminator]
    rcases evalOperand_withPool hpool st fu with h | h
    · exact .inl (by rw [h]; trivial)
    rw [h]
    split
    · split
      · exact jump_withPool hpool _ r args
      · exact .inr rfl
    · exact .inr rfl

end

lemma runStmts_withPool (ss : List AmirStmt) (st : State E.host) :
    (True ∧ ∃ stk, runStmts E f ss st = .error (.stuck, stk)) ∨
      RunRel Eq (runStmts E f ss st) (runStmts (E.withPool pool) f ss st) := by
  refine runStmts_rel rfl rfl ?_
  rintro k s s' stk _ hs hs' - rfl
  cases hs.symm.trans hs'
  refine (execStmt_withPool hpool stk s).imp (⟨trivial, ·⟩) fun heq => ?_
  rw [heq]
  exact .same _

lemma runN_withPool (n : Nat) (st₀ : State E.host) : (runN E f n (.running 0 st₀)).isStuck ∨
      runN (E.withPool pool) f n (.running 0 st₀) = runN E f n (.running 0 st₀) := by
  refine (runN_rel rfl ?_ n).imp (And.right (a := True)) Rel.eq
  rintro b st _ - rfl
  refine step_rel (runStmts_withPool hpool _ st) ?_
  rintro st₁ _ - rfl
  refine (execTerminator_withPool hpool st₁ _).imp (⟨trivial, ·⟩) fun heq => ?_
  rw [heq]
  exact .refl _

lemma ReachesStmt.withPool {st₀ st : State E.host} {b : BlockId} {k : Nat}
    (h : ReachesStmt E f st₀ b k st) : ReachesStmt (E.withPool pool) f st₀ b k st := by
  obtain ⟨stb, ⟨n, hn⟩, hrun⟩ := h
  refine ⟨stb, ⟨n, ?_⟩, ?_⟩
  · rcases @runN_withPool E f pool hpool n st₀ with hstuck | heq
    · rw [hn] at hstuck
      cases hstuck
    · exact heq.trans hn
  · rcases runStmts_withPool hpool ((f.blockStmts b).take k) stb with ⟨-, stk, hstuck⟩ | hrel
    · rw [hrun] at hstuck
      cases hstuck
    · rw [hrun] at hrel
      generalize runStmts (E.withPool pool) f ((f.blockStmts b).take k) stb = x at hrel ⊢
      cases hrel with
      | ok h => rw [h]

end Literals

end Arandu.Amir
