import Arandu.Amir.Ssa

/-!
# States that agree on what is still needed

A pass that deletes statements leaves temps and private locals behind that differ from the
original run. Two states *agree* when they have the same heap, the same values in the
needed temps and the same contents in the kept locals, and when an observer has seen the
same visible statements. Executing one statement or terminator in both states, if it only
reads needed temps and kept locals, has the same outcome and keeps the agreement.
-/

namespace Arandu.Amir

/-! ## Results related by a relation on states -/

/-- Two results that fail alike, or succeed with related values. -/
inductive Res.Rel {α β : Type} (R : α → β → Prop) : Res α → Res β → Prop
  | ok {a : α} {b : β} (h : R a b) : Rel R (.ok a) (.ok b)
  | error (e : Stop) : Rel R (.error e) (.error e)

lemma Res.Rel.bind {α β γ δ : Type} {R : α → β → Prop} {S : γ → δ → Prop} {x : Res α}
    {y : Res β} {k : α → Res γ} {k' : β → Res δ} (h : Rel R x y)
    (hk : ∀ a b, R a b → Rel S (k a) (k' b)) : Rel S (x >>= k) (y >>= k') := by
  cases h with
  | ok hab => exact hk _ _ hab
  | error e => exact .error e

lemma Res.Rel.same {α : Type} (x : Res α) : Rel (fun a b => a = b) x x := by
  cases x with
  | error e => exact .error e
  | ok a => exact .ok rfl

/-- Statement lists that fail alike in related states, or complete in related states. -/
inductive RunRel {h : Host} (R : State h → State h → Prop) :
    Except (Stop × State h) (State h) → Except (Stop × State h) (State h) → Prop
  | ok {st st' : State h} (h : R st st') : RunRel R (.ok st) (.ok st')
  | error (e : Stop) {st st' : State h} (h : R st st') : RunRel R (.error (e, st)) (.error (e, st'))

open Config Res Rel AmirRvalue

inductive Config.Rel {h : Host} (R : State h → State h → Prop) : Config h → Config h → Prop
  | running (b : BlockId) {st st' : State h} (h : R st st') :
      Rel R (.running b st) (.running b st')
  | halted (o : Outcome h) {st st' : State h} (h : R st st') :
      Rel R (.halted o st) (.halted o st')

lemma Config.Rel.mono {h : Host} {R S : State h → State h → Prop} {c c' : Config h}
    (hrel : Rel R c c') (himp : ∀ st st', R st st' → S st st') : Rel S c c' := by
  cases hrel with
  | running b hR => exact .running b (himp _ _ hR)
  | halted o hR => exact .halted o (himp _ _ hR)

lemma Config.Rel.refl {h : Host} (c : Config h) : Rel Eq c c := by
  cases c with
  | running b st => exact .running b rfl
  | halted o st => exact .halted o rfl

lemma Config.Rel.of_refl {h : Host} {R : State h → State h → Prop} (hR : ∀ st, R st st)
    (c : Config h) : Rel R c c :=
  (refl c).mono fun st _ heq => heq ▸ hR st

lemma Config.Rel.eq {h : Host} {c c' : Config h} (hrel : Rel Eq c c') : c' = c := by
  cases hrel with
  | running b heq => rw [heq]
  | halted o heq => rw [heq]

/-- The run has no meaning from here on. -/
def Config.isStuck {h : Host} : Config h → Prop
  | .halted (.stopped .stuck) _ => True
  | _ => False

/-- The same environment over another pool. -/
abbrev Env.withPool (E : Env) (pool : AmirLiteralPool) : Env := { E with pool := pool }

/-! ## Runs in lockstep

A rewritten function is followed statement by statement, block by block and over whole
runs. With `lax`, the original may lose its meaning instead of staying related. -/

section Lockstep

variable {E : Env} {f f' : AmirFunc} {pool : AmirLiteralPool} {lax : Prop}
  {R : State E.host → State E.host → Prop} {st st' st₀ : State E.host}

lemma runStmts_rel {ss ss' : List AmirStmt} (hlen : ss'.length = ss.length) (h : R st st')
    (hstmts : ∀ k s s' stk stk', ss[k]? = some s → ss'[k]? = some s' →
      runStmts E f (ss.take k) st = .ok stk → R stk stk' →
      (lax ∧ execStmt E f stk s = .error .stuck) ∨
        Rel R (execStmt E f stk s) (execStmt (E.withPool pool) f' stk' s')) :
    (lax ∧ ∃ stk, runStmts E f ss st = .error (.stuck, stk)) ∨
      RunRel R (runStmts E f ss st) (runStmts (E.withPool pool) f' ss' st') := by
  induction ss generalizing ss' st st' with
  | nil =>
    cases ss' with
    | nil => exact .inr (.ok h)
    | cons s' ss' => cases hlen
  | cons s ss ih =>
    cases ss' with
    | nil => cases hlen
    | cons s' ss' =>
      simp only [runStmts]
      rcases hstmts 0 s s' st st' rfl rfl rfl h with ⟨hlax, hstuck⟩ | hstep
      · exact .inl ⟨hlax, st, by rw [hstuck]⟩
      generalize hx : execStmt E f st s = x at hstep
      generalize execStmt (E.withPool pool) f' st' s' = x' at hstep
      cases hstep with
      | error e => exact .inr (.error e h)
      | ok hnext =>
        refine ih (Nat.succ.inj hlen) hnext fun k t t' stk stk' hk hk' hrun => ?_
        refine hstmts (k + 1) t t' stk stk' hk hk' ?_
        exact runStmts_cons_ok.2 ⟨_, hx, hrun⟩

lemma step_rel {b : BlockId}
    (hstmts : (lax ∧ ∃ stk, runStmts E f (f.blockStmts b) st = .error (.stuck, stk)) ∨
      RunRel R (runStmts E f (f.blockStmts b) st)
        (runStmts (E.withPool pool) f' (f'.blockStmts b) st'))
    (hterm : ∀ st₁ st₁', runStmts E f (f.blockStmts b) st = .ok st₁ → R st₁ st₁' →
      (lax ∧ (execTerminator E f st₁ (f.block b).terminator).isStuck) ∨
        Rel R (execTerminator E f st₁ (f.block b).terminator)
          (execTerminator (E.withPool pool) f' st₁' (f'.block b).terminator)) :
    (lax ∧ (step E f (.running b st)).isStuck) ∨
      Rel R (step E f (.running b st)) (step (E.withPool pool) f' (.running b st')) := by
  simp only [step]
  rcases hstmts with ⟨hlax, stk, hstuck⟩ | hrun
  · exact .inl ⟨hlax, by rw [hstuck]; trivial⟩
  generalize hx : runStmts E f (f.blockStmts b) st = x at hrun hterm
  generalize runStmts (E.withPool pool) f' (f'.blockStmts b) st' = x' at hrun
  cases hrun with
  | error e h => exact .inr (.halted _ h)
  | ok h => exact hterm _ _ rfl h

lemma runN_rel (h₀ : R st₀ st₀) (hstep : ∀ b st st', ReachesBlock E f st₀ b st → R st st' →
      (lax ∧ (step E f (.running b st)).isStuck) ∨
        Rel R (step E f (.running b st)) (step (E.withPool pool) f' (.running b st'))) (n : Nat) :
    (lax ∧ (runN E f n (.running 0 st₀)).isStuck) ∨ Rel R (runN E f n (.running 0 st₀))
        (runN (E.withPool pool) f' n (.running 0 st₀)) := by
  induction n with
  | zero => exact .inr (.running 0 h₀)
  | succ n ih =>
    rw [runN_succ, runN_succ]
    generalize hc : runN E f n (.running 0 st₀) = c at ih
    generalize runN (E.withPool pool) f' n (.running 0 st₀) = c' at ih
    rcases ih with ⟨hlax, hstuck⟩ | hrel
    · cases c with
      | running b st => cases hstuck
      | halted o st => exact .inl ⟨hlax, hstuck⟩
    · cases hrel with
      | running b h => exact hstep b _ _ ⟨n, hc⟩ h
      | halted o h => exact .inr (.halted o h)

end Lockstep

/-! ## Agreement -/

/-- The state agrees on the heap, on the `needed` temps, on the `kept` locals and on the
`visible` part of the trace. -/
structure Agree {h : Host} (needed : TempId → Prop) (kept : LocalId → Prop)
    (visible : AmirStmt → Bool) (st st' : State h) : Prop where
  temps : ∀ t, needed t → st'.temps t = st.temps t
  heap : st'.heap = st.heap
  slots : ∀ l, kept l → st'.slots l = st.slots l
  events : st'.trace.filter (fun e => visible e.1) = st.trace.filter fun e => visible e.1

def AmirStmt.localId? : AmirStmt → Option LocalId
  | .assign _ rv => rv.placeLocal?
  | .store p _ | .destroy p => some p.localId
  | .storageLive l | .storageDead l => some l
  | .call _ _ _ | .free _ | .nop => none

section

variable {E : Env} {f : AmirFunc} {needed : TempId → Prop} {kept : LocalId → Prop}
  {visible : AmirStmt → Bool} {st st' : State E.host}

lemma Agree.refl (st : State E.host) : Agree needed kept visible st st :=
  ⟨fun _ _ => rfl, rfl, fun _ _ => rfl, rfl⟩

section

variable (h : Agree needed kept visible st st')
include h

lemma Agree.symm : Agree needed kept visible st' st :=
  ⟨fun t ht => (h.temps t ht).symm, h.heap.symm, fun l hl => (h.slots l hl).symm, h.events.symm⟩

lemma Agree.trans {st'' : State E.host} (h' : Agree needed kept visible st' st'') :
    Agree needed kept visible st st'' :=
  ⟨fun t ht => (h'.temps t ht).trans (h.temps t ht), h'.heap.trans h.heap,
    fun l hl => (h'.slots l hl).trans (h.slots l hl), h'.events.trans h.events⟩

lemma Agree.mono {needed' : TempId → Prop} (hsub : ∀ t, needed' t → needed t) :
    Agree needed' kept visible st st' :=
  ⟨fun t ht => h.temps t (hsub t ht), h.heap, h.slots, h.events⟩

lemma Agree.setTemp (t : TempId) (v : E.host.Val) :
    Agree needed kept visible (st.setTemp t v) (st'.setTemp t v) where
  temps u hu := by
    by_cases hut : u = t
    · subst hut
      simp
    · rw [State.setTemp_of_ne _ _ hut, State.setTemp_of_ne _ _ hut]
      exact h.temps u hu
  heap := h.heap
  slots := h.slots
  events := h.events

lemma Agree.withHeap (heap : E.host.Heap) :
    Agree needed kept visible { st with heap := heap } { st' with heap := heap } :=
  ⟨h.temps, rfl, h.slots, h.events⟩

lemma Agree.setSlot (l : LocalId) (s : E.host.Slot) :
    Agree needed kept visible (st.setSlot l s) (st'.setSlot l s) where
  temps := h.temps
  heap := h.heap
  slots k hk := by
    by_cases hkl : k = l
    · simp [State.setSlot, hkl]
    · simpa [State.setSlot, hkl] using h.slots k hk
  events := h.events

lemma Agree.slotOf {l : LocalId} (hl : kept l) : slotOf E st' l = slotOf E st l := by
  simp only [Amir.slotOf, h.slots l hl]

lemma Agree.evalOperand {op : AmirOperand} (hop : ∀ t, op.temp? = some t → needed t) :
    Amir.evalOperand E st' op = Amir.evalOperand E st op :=
  evalOperand_congr fun t ht => h.temps t (hop t ht)

lemma Agree.evalOperands {ops : List AmirOperand} (hops : ∀ t ∈ operandTemps ops, needed t) :
    Amir.evalOperands E st' ops = Amir.evalOperands E st ops :=
  evalOperands_congr fun op hop t ht => h.temps t (hops t (mem_operandTemps.2 ⟨op, hop, ht⟩))

end

/-! ## Statements -/

section

variable (h : Agree needed kept visible st st')
include h

lemma Agree.evalRvalue {rv : AmirRvalue} (hlocal : ∀ l, rv.placeLocal? = some l → kept l)
    (ty : TypeId) (vals : List E.host.Val) :
    Amir.evalRvalue E f st' ty rv vals = Amir.evalRvalue E f st ty rv vals := by
  have hread : readRvalue E f st' ty rv vals = readRvalue E f st ty rv vals := by
    cases rv with
    | load p | borrow p | borrowMut p | relativeBorrow l m =>
      simp only [readRvalue, placeLocal?, h.heap, h.slotOf (hlocal _ rfl)]
    | unary op x =>
      cases op <;> rcases vals with _ | ⟨a, _ | ⟨b, vals⟩⟩ <;>
        simp only [readRvalue, placeLocal?, h.heap]
    | indexAccess x y k =>
      rcases vals with _ | ⟨a, _ | ⟨b, _ | ⟨c, vals⟩⟩⟩ <;> first
          | (cases b <;> simp only [readRvalue, h.heap])
          | simp only [readRvalue]
    | _ =>
      rcases vals with _ | ⟨a, _ | ⟨b, _ | ⟨c, vals⟩⟩⟩ <;>
        simp only [readRvalue, placeLocal?, h.heap]
  simp only [Amir.evalRvalue, hread, h.heap]

/-- A statement on kept locals, given equal operand values, does the same in both states. -/
lemma Agree.applyStmt {s : AmirStmt} (hlocal : ∀ l, s.localId? = some l → kept l)
    (vals : List E.host.Val) : Rel (Agree needed kept visible) (applyStmt E f st s vals)
      (applyStmt E f st' s vals) := by
  cases s with
  | assign t rv =>
    simp only [Amir.applyStmt]
    cases f.temps[t]? with
    | none => exact .error _
    | some tmp =>
      simp only [h.evalRvalue hlocal]
      refine (same _).bind ?_
      rintro ⟨v, heap⟩ _ rfl
      refine (same _).bind ?_
      rintro w _ rfl
      exact .ok ((h.withHeap heap).setTemp t w)
  | store p op =>
    have hl : kept p.localId := hlocal _ rfl
    simp only [Amir.applyStmt, h.heap, h.slotOf hl, h.slots _ hl]
    cases vals.getLast? with
    | none => exact .error _
    | some v =>
      simp only
      split
      · refine (same _).bind ?_
        rintro heap _ rfl
        exact .ok (h.withHeap heap)
      · refine (same _).bind ?_
        rintro slot _ rfl
        exact .ok (h.setSlot _ slot)
  | call lhs c args =>
    simp only [Amir.applyStmt, h.heap]
    cases vals with
    | nil => exact .error _
    | cons callee args =>
      refine (same _).bind ?_
      rintro ⟨v, heap⟩ _ rfl
      cases lhs with
      | none => exact .ok (h.withHeap heap)
      | some t =>
        simp only
        cases f.temps[t]? with
        | none => exact .error _
        | some tmp =>
          refine (same _).bind ?_
          rintro w _ rfl
          exact .ok ((h.withHeap heap).setTemp t w)
  | free op =>
    simp only [Amir.applyStmt, h.heap]
    split
    · refine (same _).bind ?_
      rintro heap _ rfl
      exact .ok (h.withHeap heap)
    · exact .error _
  | storageLive l | storageDead l =>
    simp only [Amir.applyStmt, applyStmt.storage, h.heap]
    split
    · exact .ok (h.withHeap _)
    · exact .ok (h.setSlot _ _)
  | destroy p =>
    simp only [Amir.applyStmt, h.heap, h.slotOf (hlocal _ rfl)]
    refine (same _).bind ?_
    rintro ⟨heap, slot⟩ _ rfl
    cases slot with
    | none => exact .ok (h.withHeap heap)
    | some s => exact .ok ((h.withHeap heap).setSlot _ s)
  | nop => exact .ok h

lemma Agree.execStmt {s : AmirStmt} (hops : ∀ t ∈ operandTemps s.operands, needed t)
    (hlocal : ∀ l, s.localId? = some l → kept l) :
    Rel (Agree needed kept visible) (execStmt E f st s) (execStmt E f st' s) := by
  unfold Amir.execStmt
  rw [h.evalOperands hops]
  cases Amir.evalOperands E st s.operands with
  | error e => exact .error e
  | ok vals =>
    refine (h.applyStmt hlocal vals).bind ?_
    intro a a' ha
    refine .ok ⟨ha.temps, ha.heap, ha.slots, ?_⟩
    simp only [List.filter_append, ha.events]

lemma Agree.runStmts {ss : List AmirStmt} (hops : ∀ s ∈ ss, ∀ t ∈ operandTemps s.operands, needed t)
    (hlocal : ∀ s ∈ ss, ∀ l, s.localId? = some l → kept l) :
    RunRel (Agree needed kept visible) (runStmts E f ss st) (runStmts E f ss st') := by
  refine (runStmts_rel rfl h ?_).resolve_left And.left
  intro k s s' stk stk' hs hs' _ hagree
  cases hs.symm.trans hs'
  have hmem := List.mem_of_getElem? hs
  exact .inr (hagree.execStmt (hops s hmem) (hlocal s hmem))

end

/-! ## Terminators -/

variable (h : Agree needed kept visible st st')
include h

lemma Agree.paramValues {ps : List BlockParam} {ops : List AmirOperand}
    (hops : ∀ t ∈ operandTemps ops, needed t) :
    Amir.paramValues E f st' ps ops = Amir.paramValues E f st ps ops := by
  induction ps generalizing ops with
  | nil => cases ops <;> rfl
  | cons p ps ih =>
    cases ops with
    | nil => rfl
    | cons op ops =>
      have hop := h.evalOperand fun t ht => hops t (mem_operandTemps.2 ⟨op, List.mem_cons_self, ht⟩)
      have hrest := ih fun t ht => hops t <| by
        obtain ⟨o, ho, hot⟩ := mem_operandTemps.1 ht
        exact mem_operandTemps.2 ⟨o, List.mem_cons_of_mem _ ho, hot⟩
      simp only [Amir.paramValues, hop, hrest]

lemma Agree.setParams (as : List (TempId × E.host.Val)) :
    Agree needed kept visible (setParams E st as) (setParams E st' as) := by
  induction as generalizing st st' with
  | nil => exact h
  | cons a as ih => exact ih (h.setTemp a.1 a.2)

lemma Agree.jump {args : List AmirOperand} (hargs : ∀ t ∈ operandTemps args, needed t)
    (b : BlockId) : Rel (Agree needed kept visible) (jump E f st b args) (jump E f st' b args) := by
  unfold Amir.jump
  rw [h.paramValues hargs]
  cases Amir.paramValues E f st (f.blockParamsOf b) args with
  | error e => exact .halted _ h
  | ok as => exact .running b (h.setParams as)

lemma Agree.execTerminator {term : AmirTerminator}
    (hops : ∀ t ∈ operandTemps term.operands, needed t) (hreturn : term = .return → needed 0) :
    Rel (Agree needed kept visible) (execTerminator E f st term) (execTerminator E f st' term) := by
  have hop : ∀ op ∈ term.operands, Amir.evalOperand E st' op = Amir.evalOperand E st op :=
    fun op hop => h.evalOperand fun t ht => hops t (mem_operandTemps.2 ⟨op, hop, ht⟩)
  have hedge : ∀ b args, (b, args) ∈ term.edges → ∀ t ∈ operandTemps args, needed t := by
    intro b args hmem t ht
    obtain ⟨op, hop, hopt⟩ := mem_operandTemps.1 ht
    exact hops t (mem_operandTemps.2 ⟨op, AmirTerminator.mem_operands_of_mem_edges hmem hop, hopt⟩)
  have hrel := execTerminator_rel (g := f) (m := id) (R := Rel (Agree needed kept visible))
    hop h.heap (fun hterm => h.temps 0 (hreturn hterm)) (fun o => .halted o h)
    fun heap e he => (h.withHeap heap).jump (hedge e.1 e.2 he) e.1
  rwa [AmirTerminator.mapEdges_id] at hrel

end

end Arandu.Amir
