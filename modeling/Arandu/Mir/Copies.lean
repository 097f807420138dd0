import Arandu.Amir.Ssa

/-!
# Copies

Several passes identify a temp with the temp a `Use` copied it from. A `Use` between
temps of different types converts the value, so the identification is right only as long
as the copies a run executes keep their values.
-/

namespace Arandu.Mir

open Arandu.Amir Arandu.Library

variable {E : Env} {f : AmirFunc} {st₀ : State E.host} {reads : AmirRvalue → Bool}

/-- The temps that a pass follows back: the operands of the right-hand sides it reads, and the
sources of the copies that define them. -/
inductive Followed (f : AmirFunc) (reads : AmirRvalue → Bool) : TempId → Prop
  | operand {c t : TempId} {rv : AmirRvalue} (hmem : .assign c rv ∈ f.stmts)
      (hreads : reads rv = true) (ht : t ∈ operandTemps rv.operands) : Followed f reads t
  | copy {t source : TempId} {op : AmirOperand} (h : Followed f reads t)
      (hmem : .assign t (.use op) ∈ f.stmts) (hop : op.temp? = some source) :
      Followed f reads source

/-- Every copy into a followed temp that the run executes leaves the value as it is. -/
def CopiesKeepValue (E : Env) (f : AmirFunc) (st₀ : State E.host) (reads : AmirRvalue → Bool) :
    Prop :=
  ∀ d j st st' t op source, Followed f reads t → ReachesStmt E f st₀ d j st →
    (f.blockStmts d)[j]? = some (.assign t (.use op)) → op.temp? = some source →
    execStmt E f st (.assign t (.use op)) = .ok st' → st'.temps t = st.temps source

/-- Wherever `t` is settled, so is `l`, with the same value. -/
def SameValue (E : Env) (f : AmirFunc) (st₀ : State E.host) (t l : TempId) : Prop :=
  ∀ b k st, ReachesStmt E f st₀ b k st → f.Settled t b k → f.Settled l b k ∧ st.temps t = st.temps l

lemma SameValue.refl (t : TempId) : SameValue E f st₀ t t := fun _ _ _ _ ht => ⟨ht, rfl⟩

lemma SameValue.trans {t l m : TempId} (h : SameValue E f st₀ t l)
    (h' : SameValue E f st₀ l m) : SameValue E f st₀ t m := by
  intro b k st hreach ht
  obtain ⟨hl, hval⟩ := h b k st hreach ht
  obtain ⟨hm, hval'⟩ := h' b k st hreach hl
  exact ⟨hm, hval.trans hval'⟩

lemma sameValue_of_copy (hwf : WellFormed f) (hssa : f.Ssa)
    (hcopies : CopiesKeepValue E f st₀ reads) {id : InstrId} {t source : TempId}
    {op : AmirOperand} (hfollowed : Followed f reads t)
    (hid : f.stmts[id]? = some (.assign t (.use op))) (hop : op.temp? = some source) :
    SameValue E f st₀ t source := by
  intro b k st hreach ht
  obtain ⟨d, j, hs, hpos⟩ := ht.position hid rfl
  have hmem : source ∈ operandTemps (AmirStmt.assign t (.use op)).operands :=
    mem_operandTemps.2 ⟨op, by simp [AmirStmt.operands, AmirRvalue.operands], hop⟩
  refine ⟨hssa.settled_operand hreach.reachable hs hmem hpos, ?_⟩
  obtain ⟨vals, w, hvals, hw, hR⟩ := hssa.available hwf hs rfl (R := fun vals w => vals = [w])
    (fun st st' vals w hreach hvals hexec hw => by
      obtain ⟨v, hv, rfl⟩ := evalOperands_singleton.1 hvals
      have hkeep := hcopies d j st st' t op source hfollowed hreach hs hop hexec
      rw [hw, (evalOperand_temp hop).1 hv] at hkeep
      rw [Option.some.inj hkeep]) hreach hpos
  obtain ⟨v, hv, hvw⟩ := evalOperands_singleton.1 hvals
  rw [hw, (evalOperand_temp hop).1 hv]
  rw [hR] at hvw
  simpa using hvw

lemma copiesKeepValue_of_sameType
    (h : ∀ t op source, AmirStmt.assign t (.use op) ∈ f.stmts → op.temp? = some source →
      operandTy? f op = (f.temps[t]?).map AmirTemp.ty) : CopiesKeepValue E f st₀ reads := by
  intro d j st st' t op source _ _ hs hop hexec
  obtain ⟨id, -, hid⟩ := AmirFunc.mem_stmts_of_blockStmts hs rfl
  obtain ⟨vals, st₁, hvals, happ, rfl⟩ := execStmt_ok.1 hexec
  obtain ⟨tmp, v, heap, w, htmp, hrv, hw, rfl⟩ := applyStmt_assign_ok.1 happ
  obtain ⟨v', hv', rfl⟩ := evalOperands_singleton.1 hvals
  have hty : operandTy? f op = some tmp.ty := by
    rw [h t op source (List.mem_of_getElem? hid) hop, htmp]
    rfl
  have hraw : v' = v ∧ st.heap = heap := by
    simpa [evalRvalue, readRvalue, AmirRvalue.isEffect] using hrv
  have hvw : v = w := by simpa [assignValue, convert, hty] using hw
  rw [(evalOperand_temp hop).1 hv', hraw.1, hvw]
  simp

end Arandu.Mir
