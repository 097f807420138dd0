import Arandu.Amir.Semantics

/-!
# What a step reads and what it changes

Frame lemmas for the execution relation: operands read their own temps only, a statement
changes at most the temp it defines, an edge changes at most the parameters of its
target. Inversion lemmas say everything a completed statement, edge or block step did.
-/

namespace Arandu.Amir

open Arandu.Library List Res AmirTerminator

variable {E : Env} {f : AmirFunc}

/-! ## Operands -/

variable {st st' : State E.host} {op : AmirOperand}

lemma evalOperand_congr (h : ∀ t, op.temp? = some t → st.temps t = st'.temps t) :
    evalOperand E st op = evalOperand E st' op := by
  cases op with
  | copy t | move t => simp [evalOperand, readTemp, h t rfl]
  | _ => rfl

variable {ops : List AmirOperand}

lemma evalOperands_congr (h : ∀ op ∈ ops, ∀ t, op.temp? = some t → st.temps t = st'.temps t) :
    evalOperands E st ops = evalOperands E st' ops := by
  induction ops with
  | nil => rfl
  | cons op ops ih =>
    have hop : evalOperand E st op = evalOperand E st' op :=
      evalOperand_congr (h op mem_cons_self)
    have hops := ih fun o ho => h o (mem_cons_of_mem _ ho)
    simp only [evalOperands, hop, hops]

@[simp] lemma evalOperands_nil (st : State E.host) : evalOperands E st [] = .ok [] := rfl

variable {vals : List E.host.Val} {v : E.host.Val} {e : Stop}

lemma evalOperands_cons_ok : evalOperands E st (op :: ops) = .ok vals ↔
      ∃ v vs, evalOperand E st op = .ok v ∧ evalOperands E st ops = .ok vs ∧ vals = v :: vs := by
  simp only [evalOperands, bind_eq_ok, Except.ok.injEq]
  constructor
  · rintro ⟨v, hv, vs, hvs, rfl⟩
    exact ⟨v, vs, hv, hvs, rfl⟩
  · rintro ⟨v, vs, hv, hvs, rfl⟩
    exact ⟨v, hv, vs, hvs, rfl⟩

variable {t : TempId}

lemma evalOperand_temp (h : op.temp? = some t) :
    evalOperand E st op = .ok v ↔ st.temps t = some v := by
  have hread : evalOperand E st op = readTemp E st t := by
    cases op <;> simp_all [evalOperand]
  rw [hread, readTemp]
  cases st.temps t <;> simp

lemma evalOperands_singleton :
    evalOperands E st [op] = .ok vals ↔ ∃ v, evalOperand E st op = .ok v ∧ vals = [v] := by
  simp [evalOperands_cons_ok]

lemma evalOperands_pair {a b : AmirOperand} : evalOperands E st [a, b] = .ok vals ↔
      ∃ v w, evalOperand E st a = .ok v ∧ evalOperand E st b = .ok w ∧ vals = [v, w] := by
  rw [evalOperands_cons_ok]
  simp only [evalOperands_singleton]
  constructor
  · rintro ⟨v, vs, hv, ⟨w, hw, rfl⟩, rfl⟩
    exact ⟨v, w, hv, hw, rfl⟩
  · rintro ⟨v, w, hv, hw, rfl⟩
    exact ⟨v, [w], hv, ⟨w, hw, rfl⟩, rfl⟩

/-- Reading operands never traps: what has no value has no meaning. -/
lemma evalOperand_error (h : evalOperand E st op = .error e) : e = .stuck := by
  have htemp : ∀ t, readTemp E st t = .error e → e = .stuck := by
    intro t ht
    unfold readTemp at ht
    split at ht <;> cases ht
    rfl
  cases op with
  | copy t | move t => exact htemp t h
  | constant c =>
    simp only [evalOperand, constValue] at h
    split at h
    · cases h
    · cases h
    · split at h
      · split at h <;> cases h
        rfl
      all_goals cases h
      rfl
  | functionRef s => cases h
  | globalRef s => cases h

lemma evalOperands_error (h : evalOperands E st ops = .error e) : e = .stuck := by
  induction ops with
  | nil => cases h
  | cons op ops ih =>
    simp only [evalOperands] at h
    cases hv : evalOperand E st op with
    | error e' =>
      rw [hv] at h
      cases h
      exact evalOperand_error hv
    | ok v =>
      rw [hv] at h
      cases hvs : evalOperands E st ops with
      | error e' =>
        rw [hvs] at h
        cases h
        exact ih hvs
      | ok vs =>
        rw [hvs] at h
        cases h

/-! ## Statements -/

variable {s : AmirStmt} {rv : AmirRvalue} {w : E.host.Val}

lemma execStmt_ok : execStmt E f st s = .ok st' ↔
      ∃ vals st₁, evalOperands E st s.operands = .ok vals ∧ applyStmt E f st s vals = .ok st₁ ∧
        st' = { st₁ with trace := st₁.trace ++ [(s, vals)] } := by
  simp only [execStmt, bind_eq_ok, Except.ok.injEq]
  constructor
  · rintro ⟨vals, hvals, st₁, hst₁, rfl⟩
    exact ⟨vals, st₁, hvals, hst₁, rfl⟩
  · rintro ⟨vals, st₁, hvals, hst₁, rfl⟩
    exact ⟨vals, hvals, st₁, hst₁, rfl⟩

lemma applyStmt_assign_ok : applyStmt E f st (.assign t rv) vals = .ok st' ↔
      ∃ tmp v heap w, f.temps[t]? = some tmp ∧ evalRvalue E f st tmp.ty rv vals = .ok (v, heap) ∧
        assignValue E f tmp rv v = .ok w ∧
        st' = ({ st with heap := heap } : State E.host).setTemp t w := by
  simp only [applyStmt]
  cases htmp : f.temps[t]? with
  | none => simp
  | some tmp =>
    simp only [bind_eq_ok, Except.ok.injEq]
    constructor
    · rintro ⟨⟨v, heap⟩, hrv, w, hw, rfl⟩
      exact ⟨tmp, v, heap, w, rfl, hrv, hw, rfl⟩
    · rintro ⟨tmp', v, heap, w, htmp', hrv, hw, rfl⟩
      cases htmp'
      exact ⟨(v, heap), hrv, w, hw, rfl⟩

lemma execStmt_assign_ok (hvals : evalOperands E st rv.operands = .ok vals)
    (hexec : execStmt E f st (.assign t rv) = .ok st') (hw : st'.temps t = some w) :
    ∃ tmp v heap, f.temps[t]? = some tmp ∧ evalRvalue E f st tmp.ty rv vals = .ok (v, heap) ∧
      assignValue E f tmp rv v = .ok w := by
  obtain ⟨vals', st₁, hvals', happ, rfl⟩ := execStmt_ok.1 hexec
  cases hvals.symm.trans hvals'
  obtain ⟨tmp, v, heap, w', htmp, hrv, hassign, rfl⟩ := applyStmt_assign_ok.1 happ
  obtain rfl : w' = w := by simpa using hw
  exact ⟨tmp, v, heap, htmp, hrv, hassign⟩

lemma applyStmt_call_ok {lhs : Option TempId} {c : AmirOperand} {args : List AmirOperand}
    (h : applyStmt E f st (.call lhs c args) vals = .ok st') :
    ∃ callee rest v heap, vals = callee :: rest ∧ E.host.call callee rest st.heap = .ok (v, heap) ∧
      (lhs = none ∧ st' = { st with heap := heap } ∨ ∃ t tmp w, lhs = some t ∧
        f.temps[t]? = some tmp ∧ E.conform tmp.ty v = .ok w ∧
        st' = ({ st with heap := heap } : State E.host).setTemp t w) := by
  simp only [applyStmt] at h
  split at h
  · cases h
  next callee rest =>
    obtain ⟨⟨v, heap⟩, hcall, hx⟩ := bind_eq_ok.1 h
    refine ⟨callee, rest, v, heap, rfl, hcall, ?_⟩
    cases lhs with
    | none => exact .inl ⟨rfl, (Except.ok.inj hx).symm⟩
    | some t =>
      simp only at hx
      split at hx
      · cases hx
      next tmp htmp =>
        obtain ⟨w, hw, hst⟩ := bind_eq_ok.1 hx
        exact .inr ⟨t, tmp, w, rfl, htmp, hw, (Except.ok.inj hst).symm⟩

section

variable (h : applyStmt E f st s vals = .ok st')
include h

/-- A statement changes at most the temp it defines, and records nothing. -/
lemma applyStmt_frame :
    (∀ t, s.def? ≠ some t → st'.temps t = st.temps t) ∧ st'.trace = st.trace := by
  cases s with
  | assign lhs rv =>
    obtain ⟨tmp, v, heap, w, -, -, -, rfl⟩ := applyStmt_assign_ok.1 h
    exact ⟨fun t ht => State.setTemp_of_ne _ _ fun heq => ht (by rw [heq]; rfl), rfl⟩
  | store p op =>
    simp only [applyStmt] at h
    split at h
    · cases h
    · split at h <;> obtain ⟨x, -, hx⟩ := bind_eq_ok.1 h <;> cases hx <;>
        exact ⟨fun _ _ => rfl, rfl⟩
  | call lhs c args =>
    obtain ⟨_, _, _, heap, -, -, ⟨-, rfl⟩ | ⟨u, _, w, rfl, -, -, rfl⟩⟩ := applyStmt_call_ok h
    · exact ⟨fun _ _ => rfl, rfl⟩
    · exact ⟨fun t ht => State.setTemp_of_ne _ _ fun heq => ht (by rw [heq]; rfl), rfl⟩
  | free op =>
    simp only [applyStmt] at h
    split at h
    · obtain ⟨heap, -, hx⟩ := bind_eq_ok.1 h
      cases hx
      exact ⟨fun _ _ => rfl, rfl⟩
    · cases h
  | storageLive l | storageDead l =>
    cases h
    unfold applyStmt.storage
    split <;> exact ⟨fun _ _ => rfl, rfl⟩
  | destroy p =>
    obtain ⟨⟨heap, slot⟩, -, hx⟩ := bind_eq_ok.1 h
    cases slot <;> cases hx <;> exact ⟨fun _ _ => rfl, rfl⟩
  | nop =>
    cases h
    exact ⟨fun _ _ => rfl, rfl⟩

lemma applyStmt_temps {t : TempId} (ht : s.def? ≠ some t) : st'.temps t = st.temps t :=
  (applyStmt_frame h).1 t ht

lemma applyStmt_trace : st'.trace = st.trace :=
  (applyStmt_frame h).2

end

lemma execStmt_temps (h : execStmt E f st s = .ok st') (ht : s.def? ≠ some t) :
    st'.temps t = st.temps t := by
  obtain ⟨vals, st₁, -, happ, rfl⟩ := execStmt_ok.1 h
  exact applyStmt_temps happ ht

lemma execStmt_defines (h : execStmt E f st s = .ok st') (ht : s.def? = some t) :
    t < f.temps.length ∧ ∃ w, st'.temps t = some w := by
  obtain ⟨vals, st₁, -, happ, rfl⟩ := execStmt_ok.1 h
  cases s with
  | assign lhs rv =>
    obtain ⟨tmp, v, heap, w, htmp, -, -, rfl⟩ := applyStmt_assign_ok.1 happ
    cases ht
    exact ⟨lt_of_getElem? htmp, w, State.setTemp_self ..⟩
  | call lhs c args =>
    obtain ⟨_, _, _, heap, -, -, ⟨rfl, -⟩ | ⟨u, tmp, w, rfl, htmp, -, rfl⟩⟩ :=
      applyStmt_call_ok happ
    · cases ht
    · cases ht
      exact ⟨lt_of_getElem? htmp, w, State.setTemp_self ..⟩
  | _ => cases ht

/-! ## Statement lists -/

variable {ss : List AmirStmt}

lemma runStmts_cons_ok : runStmts E f (s :: ss) st = .ok st' ↔
      ∃ st₁, execStmt E f st s = .ok st₁ ∧ runStmts E f ss st₁ = .ok st' := by
  simp only [runStmts]
  cases execStmt E f st s <;> simp

lemma runStmts_append (xs ys : List AmirStmt) (st : State E.host) :
    runStmts E f (xs ++ ys) st = runStmts E f xs st >>= runStmts E f ys := by
  induction xs generalizing st with
  | nil => rfl
  | cons s ss ih =>
    simp only [cons_append, runStmts]
    cases execStmt E f st s with
    | error e => rfl
    | ok st₁ => exact ih st₁

lemma runStmts_append_ok {xs ys : List AmirStmt} : runStmts E f (xs ++ ys) st = .ok st' ↔
      ∃ st₁, runStmts E f xs st = .ok st₁ ∧ runStmts E f ys st₁ = .ok st' := by
  rw [runStmts_append]
  cases runStmts E f xs st <;> simp [bind, Except.bind]

lemma runStmts_temps
    (h : runStmts E f ss st = .ok st') (ht : ∀ s ∈ ss, s.def? ≠ some t) :
    st'.temps t = st.temps t := by
  induction ss generalizing st with
  | nil =>
    cases h
    rfl
  | cons s ss ih =>
    obtain ⟨st₁, hs, hss⟩ := runStmts_cons_ok.1 h
    rw [ih hss fun s' hs' => ht s' (mem_cons_of_mem _ hs')]
    exact execStmt_temps hs (ht s mem_cons_self)

/-! ## Edges and blocks -/

variable {as : List (TempId × E.host.Val)}

lemma setParams_temps
    (ht : t ∉ as.map Prod.fst) : (setParams E st as).temps t = st.temps t := by
  unfold setParams
  induction as generalizing st with
  | nil => rfl
  | cons a as ih =>
    simp only [map_cons, mem_cons, not_or] at ht
    rw [foldl_cons, ih ht.2, State.setTemp_of_ne _ _ ht.1]

variable {ps : List BlockParam}

lemma paramValues_mem (h : paramValues E f st ps ops = .ok as)
    {a : TempId × E.host.Val} (ha : a ∈ as) :
    ∃ (i : Nat) (p : BlockParam) (op : AmirOperand) (tmp : AmirTemp) (v : E.host.Val),
      ps[i]? = some p ∧ ops[i]? = some op ∧ a.1 = p.id ∧ f.temps[p.id]? = some tmp ∧
      evalOperand E st op = .ok v ∧ convert E f tmp op v = .ok a.2 := by
  induction ps generalizing ops as with
  | nil =>
    cases ops with
    | nil =>
      cases h
      cases ha
    | cons op ops => cases h
  | cons p ps ih =>
    cases ops with
    | nil => cases h
    | cons op ops =>
      simp only [paramValues] at h
      split at h
      · cases h
      next tmp htmp =>
        simp only [bind_eq_ok, Except.ok.injEq] at h
        obtain ⟨v, hv, w, hw, rest, hrest, rfl⟩ := h
        rcases mem_cons.1 ha with rfl | ha
        · exact ⟨0, p, op, tmp, v, rfl, rfl, rfl, htmp, hv, hw⟩
        · obtain ⟨i, hi⟩ := ih hrest ha
          exact ⟨i + 1, hi⟩

lemma setParams_temps_some (h : (setParams E st as).temps t = some w) :
    (t, w) ∈ as ∨ st.temps t = some w := by
  induction as generalizing st with
  | nil => exact .inr h
  | cons a as ih =>
    rcases ih h with hmem | hset
    · exact .inl (mem_cons_of_mem _ hmem)
    by_cases hta : t = a.1
    · subst hta
      rw [State.setTemp_self] at hset
      cases hset
      exact .inl mem_cons_self
    · rw [State.setTemp_of_ne _ _ hta] at hset
      exact .inr hset

section

variable (st : State E.host) (as : List (TempId × E.host.Val))

lemma setParams_eq : setParams E st as = { st with temps := (setParams E st as).temps } := by
  induction as generalizing st with
  | nil => rfl
  | cons a as ih => exact ih (st.setTemp a.1 a.2)

lemma setParams_heap : (setParams E st as).heap = st.heap := by rw [setParams_eq]

lemma setParams_slots : (setParams E st as).slots = st.slots := by rw [setParams_eq]

lemma setParams_trace : (setParams E st as).trace = st.trace := by rw [setParams_eq]

end

lemma paramValues_temps (h : st'.temps = st.temps) (ps : List BlockParam) (ops : List AmirOperand) :
    paramValues E f st' ps ops = paramValues E f st ps ops := by
  induction ps generalizing ops with
  | nil => cases ops <;> rfl
  | cons p ps ih =>
    cases ops with
    | nil => rfl
    | cons op ops =>
      have hop : evalOperand E st' op = evalOperand E st op :=
        evalOperand_congr fun t _ => congrFun h t
      simp only [paramValues, hop, ih]

lemma setParams_temps_mem (st : State E.host)
    (h : t ∈ as.map Prod.fst) : ∃ w, (setParams E st as).temps t = some w ∧ (t, w) ∈ as := by
  induction as generalizing st with
  | nil => cases h
  | cons a as ih =>
    by_cases hlater : t ∈ as.map Prod.fst
    · obtain ⟨w, hw, hmem⟩ := ih (st.setTemp a.1 a.2) hlater
      exact ⟨w, hw, mem_cons_of_mem _ hmem⟩
    · obtain rfl : t = a.1 := (mem_cons.1 h).resolve_right hlater
      refine ⟨a.2, ?_, mem_cons_self⟩
      exact (setParams_temps hlater).trans (State.setTemp_self ..)

lemma paramValues_keys (h : paramValues E f st ps ops = .ok as) :
    as.map Prod.fst = ps.map BlockParam.id := by
  induction ps generalizing ops as with
  | nil =>
    cases ops with
    | nil =>
      cases h
      rfl
    | cons op ops => cases h
  | cons p ps ih =>
    cases ops with
    | nil => cases h
    | cons op ops =>
      simp only [paramValues] at h
      split at h
      · cases h
      · simp only [bind_eq_ok, Except.ok.injEq] at h
        obtain ⟨v, -, w, -, rest, hrest, rfl⟩ := h
        simp [ih hrest]

/-- What following an edge did: the heap may have been changed by a suspension. -/
def TookEdge (E : Env) (f : AmirFunc) (st : State E.host) (args : List AmirOperand)
    (b : BlockId) (st' : State E.host) : Prop :=
  ∃ heap as, paramValues E f { st with heap := heap } (f.blockParamsOf b) args = .ok as ∧
    st' = setParams E { st with heap := heap } as

variable {args : List AmirOperand} {b : BlockId} {term : AmirTerminator}

lemma jump_running {t : BlockId} : jump E f st t args = .running b st' ↔
      b = t ∧ ∃ as, paramValues E f st (f.blockParamsOf t) args = .ok as ∧
        st' = setParams E st as := by
  unfold jump
  cases paramValues E f st (f.blockParamsOf t) args with
  | error e => simp
  | ok as =>
    simp only [Config.running.injEq, Except.ok.injEq, exists_eq_left']
    constructor
    · rintro ⟨rfl, rfl⟩
      exact ⟨rfl, rfl⟩
    · rintro ⟨rfl, rfl⟩
      exact ⟨rfl, rfl⟩

lemma execTerminator_rel {g : AmirFunc} {R : Config E.host → Config E.host → Prop}
    {m : BlockId × List AmirOperand → BlockId × List AmirOperand}
    (hops : ∀ op ∈ term.operands, evalOperand E st' op = evalOperand E st op)
    (hheap : st'.heap = st.heap) (hreturn : term = .return → st'.temps 0 = st.temps 0)
    (hhalt : ∀ o, R (.halted o st) (.halted o st'))
    (hjump : ∀ heap, ∀ e ∈ term.edges, R (jump E f { st with heap := heap } e.1 e.2)
      (jump E g { st' with heap := heap } (m e).1 (m e).2)) :
    R (execTerminator E f st term) (execTerminator E g st' (term.mapEdges m)) := by
  have hstay : ∀ e ∈ term.edges, R (jump E f st e.1 e.2) (jump E g st' (m e).1 (m e).2) := by
    have hsame : ({ st' with heap := st.heap } : State E.host) = st' := by rw [← hheap]
    exact fun e he => hsame ▸ hjump st.heap e he
  cases term with
  | «return» =>
    simp only [execTerminator, hreturn rfl]
    exact hhalt _
  | unreachable => exact hhalt _
  | goto t args => exact hstay (t, args) mem_cons_self
  | branch c t ta e fa =>
    simp only [mapEdges, execTerminator, hops c mem_cons_self]
    split
    · exact hstay (t, ta) mem_cons_self
    · exact hstay (e, fa) (mem_cons_of_mem _ mem_cons_self)
    · exact hhalt _
    · exact hhalt _
  | switchInt d ts o =>
    simp only [mapEdges, execTerminator, hops d mem_cons_self]
    split
    next n _ =>
      -- the arm is selected by its value, which is not part of the edge
      have hfind : (ts.map fun t => (t.1, m t.2)).find? (fun t => t.1 == n) =
          (ts.find? fun t => t.1 == n).map fun t => (t.1, m t.2) := find?_map ..
      rw [hfind]
      cases hmatch : ts.find? fun t => t.1 == n with
      | none => exact hstay o (mem_append_right _ mem_cons_self)
      | some t =>
        exact hstay t.2 (mem_append_left _ (mem_map_of_mem (mem_of_find?_eq_some hmatch)))
    · exact hhalt _
    · exact hhalt _
  | suspend fu r args =>
    simp only [mapEdges, execTerminator, hops fu mem_cons_self, hheap]
    split
    · split
      · exact hjump _ (r, args) mem_cons_self
      · exact hhalt _
    · exact hhalt _

lemma execTerminator_running (h : execTerminator E f st term = .running b st') :
    ∃ args, (b, args) ∈ term.edges ∧ TookEdge E f st args b st' := by
  refine execTerminator_rel (g := f) (m := id) (R := fun c _ => c = .running b st' →
    ∃ args, (b, args) ∈ term.edges ∧ TookEdge E f st args b st') (fun _ _ => rfl) rfl
    (fun _ => rfl) nofun (fun heap e he hrun => ?_) h
  obtain ⟨rfl, as, has, rfl⟩ := jump_running.1 hrun
  exact ⟨e.2, he, heap, as, has, rfl⟩

lemma TookEdge.temps (h : TookEdge E f st args b st')
    (ht : t ∉ (f.blockParamsOf b).map BlockParam.id) : st'.temps t = st.temps t := by
  obtain ⟨heap, as, has, rfl⟩ := h
  rw [← paramValues_keys has] at ht
  exact setParams_temps ht

lemma step_running {b' : BlockId} (h : step E f (.running b st) = .running b' st') :
    ∃ st₁ args, runStmts E f (f.blockStmts b) st = .ok st₁ ∧
      (b', args) ∈ (f.block b).terminator.edges ∧
      execTerminator E f st₁ (f.block b).terminator = .running b' st' ∧
      TookEdge E f st₁ args b' st' := by
  simp only [step] at h
  split at h
  next st₁ hst₁ =>
    obtain ⟨args, hmem, hedge⟩ := execTerminator_running h
    exact ⟨st₁, args, hst₁, hmem, h, hedge⟩
  · cases h

/-! ## What execution reads of a function -/

section Congr

variable {f' : AmirFunc} (htemps : f'.temps = f.temps)

include htemps

lemma convert_congr (t : AmirTemp) (op : AmirOperand) (v : E.host.Val) :
    convert E f' t op v = convert E f t op v := by
  have hty : operandTy? f' op = operandTy? f op := by simp only [operandTy?, htemps]
  unfold convert
  rw [hty]

lemma applyStmt_congr (st : State E.host) (s : AmirStmt) (vals : List E.host.Val) :
    applyStmt E f' st s vals = applyStmt E f st s vals := by
  cases s with
  | assign t rv =>
    have hread : ∀ ty, readRvalue E f' st ty rv vals = readRvalue E f st ty rv vals := by
      intro ty
      have hptr : pointerBase E f' = pointerBase E f := by
        funext op
        simp only [pointerBase, operandTy?, htemps]
      unfold readRvalue
      rw [hptr]
    have hassign : ∀ tmp v, assignValue E f' tmp rv v = assignValue E f tmp rv v := by
      intro tmp v
      cases rv <;> simp only [assignValue, convert_congr htemps]
    simp only [applyStmt, htemps, evalRvalue, hread, hassign]
  | call lhs c args => simp only [applyStmt, htemps]
  | _ => rfl

lemma execStmt_congr (st : State E.host) (s : AmirStmt) :
    execStmt E f' st s = execStmt E f st s := by
  simp only [execStmt, applyStmt_congr htemps]

lemma runStmts_congr (ss : List AmirStmt) (st : State E.host) :
    runStmts E f' ss st = runStmts E f ss st := by
  induction ss generalizing st with
  | nil => rfl
  | cons s ss ih => simp only [runStmts, execStmt_congr htemps, ih]

lemma paramValues_congr (st : State E.host) (ps : List BlockParam) (ops : List AmirOperand) :
    paramValues E f' st ps ops = paramValues E f st ps ops := by
  induction ps generalizing ops with
  | nil => cases ops <;> rfl
  | cons p ps ih =>
    cases ops with
    | nil => rfl
    | cons op ops => simp only [paramValues, htemps, convert_congr htemps, ih]

lemma execTerminator_congr (hparams : ∀ b, f'.blockParamsOf b = f.blockParamsOf b)
    (st : State E.host) (term : AmirTerminator) :
    execTerminator E f' st term = execTerminator E f st term := by
  have hjump : ∀ st t args, jump E f' st t args = jump E f st t args := by
    intro st t args
    simp only [jump, hparams, paramValues_congr htemps]
  cases term <;> simp only [execTerminator, hjump]

end Congr

/-! ## Runs -/

@[simp] lemma step_halted (o : Outcome E.host) (st : State E.host) :
    step E f (.halted o st) = .halted o st := rfl

lemma runN_succ (n : Nat) (c : Config E.host) : runN E f (n + 1) c = step E f (runN E f n c) := by
  simp [runN, Function.iterate_succ_apply']

lemma runN_succ_apply (n : Nat) (c : Config E.host) :
    runN E f (n + 1) c = runN E f n (step E f c) := by
  simp [runN]

lemma runN_add (m n : Nat) (c : Config E.host) :
    runN E f (m + n) c = runN E f m (runN E f n c) := by
  simp [runN, Function.iterate_add_apply]

lemma runN_halted (n : Nat) (o : Outcome E.host) (st : State E.host) :
    runN E f n (.halted o st) = .halted o st := by
  induction n with
  | zero => rfl
  | succ n ih => rw [runN_succ, ih, step_halted]

variable {st₀ : State E.host}

lemma ReachesBlock.induction {P : BlockId → State E.host → Prop} (hinit : P 0 st₀)
    (hstep : ∀ b st b' st', ReachesBlock E f st₀ b st → P b st →
      step E f (.running b st) = .running b' st' → P b' st')
    (h : ReachesBlock E f st₀ b st) : P b st := by
  obtain ⟨n, hn⟩ := h
  induction n generalizing b st with
  | zero =>
    cases hn
    exact hinit
  | succ n ih =>
    rw [runN_succ] at hn
    cases hprev : runN E f n (.running 0 st₀) with
    | running b₁ st₁ =>
      rw [hprev] at hn
      exact hstep b₁ st₁ b st ⟨n, hprev⟩ (ih hprev) hn
    | halted o st₁ =>
      rw [hprev] at hn
      cases hn

/-! ## Temps hold values of their type -/

/-- Every assigned temp is declared and holds a value represented as its type asks for. -/
def TempsFit (E : Env) (f : AmirFunc) (st : State E.host) : Prop :=
  ∀ t v, st.temps t = some v → ∃ tmp, f.temps[t]? = some tmp ∧ Fits E tmp.ty v

variable {tmp : AmirTemp}

section

variable (h : TempsFit E f st)
include h

lemma TempsFit.setTemp {t : TempId} (htmp : f.temps[t]? = some tmp)
    (hw : Fits E tmp.ty w) : TempsFit E f (st.setTemp t w) := by
  intro u v hu
  by_cases hut : u = t
  · subst hut
    rw [State.setTemp_self] at hu
    cases hu
    exact ⟨tmp, htmp, hw⟩
  · rw [State.setTemp_of_ne _ _ hut] at hu
    exact h u v hu

lemma TempsFit.convert {w : E.host.Val} (hv : evalOperand E st op = .ok v)
    (hw : convert E f tmp op v = .ok w) : Fits E tmp.ty w := by
  unfold Amir.convert at hw
  split at hw
  next hty =>
    cases hw
    obtain ⟨t, ht, hmap⟩ := Option.bind_eq_some_iff.1 hty
    obtain ⟨tmp', htmp', hty'⟩ := Option.map_eq_some_iff.1 hmap
    obtain ⟨tmp'', htmp'', hfits⟩ := h t v ((evalOperand_temp ht).1 hv)
    rw [htmp'] at htmp''
    cases htmp''
    exact hty' ▸ hfits
  split at hw
  next hbox =>
    -- an opaque type represents every value as it is
    refine ⟨w, ?_⟩
    rw [Env.conform, hbox.2]
    simp [Host.conform]
  · exact ⟨v, hw⟩

lemma TempsFit.assignValue {heap : E.host.Heap} (hvals : evalOperands E st rv.operands = .ok vals)
    (hv : evalRvalue E f st tmp.ty rv vals = .ok (v, heap))
    (hw : assignValue E f tmp rv v = .ok w) : Fits E tmp.ty w := by
  cases rv with
  | use op =>
    obtain ⟨v', hv', rfl⟩ := evalOperands_singleton.1 hvals
    have heq : v' = v ∧ st.heap = heap := by
      simpa [evalRvalue, readRvalue, AmirRvalue.isEffect] using hv
    exact h.convert (heq.1 ▸ hv') hw
  | _ => exact ⟨v, hw⟩

lemma TempsFit.execStmt (hexec : execStmt E f st s = .ok st') : TempsFit E f st' := by
  obtain ⟨vals, st₁, hvals, happ, rfl⟩ := execStmt_ok.1 hexec
  have hsame : s.def? = none → TempsFit E f st₁ := by
    intro hdef t v hv
    rw [applyStmt_temps happ (by simp [hdef])] at hv
    exact h t v hv
  cases s with
  | assign t rv =>
    obtain ⟨tmp, v, heap, w, htmp, hv, hw, rfl⟩ := applyStmt_assign_ok.1 happ
    have hheap : TempsFit E f { st with heap := heap } := h
    exact hheap.setTemp htmp (h.assignValue hvals hv hw)
  | call lhs c args =>
    obtain ⟨_, _, v, heap, -, -, ⟨rfl, -⟩ | ⟨t, tmp, w, rfl, htmp, hw, rfl⟩⟩ :=
      applyStmt_call_ok happ
    · exact hsame rfl
    · have hheap : TempsFit E f { st with heap := heap } := h
      exact hheap.setTemp htmp ⟨v, hw⟩
  | _ => exact hsame rfl

lemma TempsFit.runStmts (hrun : runStmts E f ss st = .ok st') : TempsFit E f st' := by
  induction ss generalizing st with
  | nil =>
    cases hrun
    exact h
  | cons s ss ih =>
    obtain ⟨st₁, hs, hss⟩ := runStmts_cons_ok.1 hrun
    exact ih (h.execStmt hs) hss

lemma TempsFit.paramValues (has : paramValues E f st ps ops = .ok as) :
    ∀ a ∈ as, ∃ tmp, f.temps[a.1]? = some tmp ∧ Fits E tmp.ty a.2 := by
  intro a ha
  obtain ⟨i, p, op, tmp, v, -, -, hid, htmp, hv, hw⟩ := paramValues_mem has ha
  exact ⟨tmp, hid ▸ htmp, h.convert hv hw⟩

lemma TempsFit.setParams (hall : ∀ a ∈ as, ∃ tmp, f.temps[a.1]? = some tmp ∧ Fits E tmp.ty a.2) :
    TempsFit E f (setParams E st as) := by
  induction as generalizing st with
  | nil => exact h
  | cons a as ih =>
    obtain ⟨tmp, htmp, hfits⟩ := hall a mem_cons_self
    exact ih (h.setTemp htmp hfits) fun a' ha' => hall a' (mem_cons_of_mem _ ha')

lemma TempsFit.tookEdge (hedge : TookEdge E f st args b st') : TempsFit E f st' := by
  obtain ⟨heap, as, has, rfl⟩ := hedge
  have hheap : TempsFit E f { st with heap := heap } := h
  exact hheap.setParams (hheap.paramValues has)

end

lemma ReachesBlock.tempsFit (hinit : IsInitial E f st₀)
    (h : ReachesBlock E f st₀ b st) : TempsFit E f st := by
  refine ReachesBlock.induction (P := fun _ st => TempsFit E f st) hinit.fits ?_ h
  intro b st b' st' _ ih hstep
  obtain ⟨st₁, args, hrun, -, -, hedge⟩ := step_running hstep
  exact (ih.runStmts hrun).tookEdge hedge

lemma ReachesStmt.tempsFit (hinit : IsInitial E f st₀)
    {k : Nat} (h : ReachesStmt E f st₀ b k st) : TempsFit E f st := by
  obtain ⟨stb, hstb, hrun⟩ := h
  exact (hstb.tempsFit hinit).runStmts hrun

end Arandu.Amir
