import Arandu.Mir.Sccp.Lattice
import Arandu.Amir.Dominators
import Arandu.Amir.Observe

/-!
# Constant propagation preserves meaning

A stable analysis describes every state of every run: a temp whose entry is a constant
holds that constant whenever it is assigned, a temp without an entry is never assigned,
and a block that is not marked is never entered. Rewriting assignments to their constants
and branches to the edge they take is then a rewriting in place.
-/

namespace Arandu.Mir.Sccp

open Arandu.Amir Arandu.Library List AmirFunc AmirTerminator AmirRvalue Dominators Res

/-! ## What a lattice value says about a run-time value -/

variable {interner : Option TypeInterner} {lattice : List LatticeVal} {pool : AmirLiteralPool}
  {c : AmirConstant} {val : LatticeVal} {ty : TypeId}

section Describe

variable {E : Env} {f : AmirFunc} {r : Res E.host.Val}

/-- `v` is a value a temp with entry `val` may hold. -/
def Describes (E : Env) : LatticeVal → E.host.Val → Prop
  | .undefined, _ => False
  | .constant c, v => constValue E c = .ok v
  | .overdefined, _ => True

lemma Describes.mono {new old : LatticeVal} {v : E.host.Val} (h : Describes E new v)
    (hbelow : new.Below old) : Describes E old v := by
  rcases hbelow with rfl | rfl | rfl
  · cases h
  · trivial
  · exact h

/-- `val` foresees the outcome of computing a value: a trap is only allowed where nothing
is known. -/
def Allows (E : Env) (val : LatticeVal) : Res E.host.Val → Prop
  | .ok w => Describes E val w
  | .error .stuck => True
  | .error .trap => val = .overdefined

lemma allows_overdefined (r : Res E.host.Val) : Allows E .overdefined r := by
  match r with
  | .ok _ => trivial
  | .error .stuck => trivial
  | .error .trap => rfl

lemma Allows.mono {new old : LatticeVal} (h : Allows E new r)
    (hbelow : new.Below old) : Allows E old r := by
  match r with
  | .ok w => exact Describes.mono h hbelow
  | .error .stuck => trivial
  | .error .trap =>
    rcases hbelow with rfl | rfl | rfl
    · cases h
    · rfl
    · exact h

def Holds (E : Env) (lattice : List LatticeVal) (st : State E.host) : Prop :=
  ∀ t v, st.temps t = some v → Describes E (lattice.getD t .undefined) v

variable {st : State E.host} {e : Stop}

lemma Holds.operand (h : Holds E lattice st)
    {op : AmirOperand} {v : E.host.Val} (hv : evalOperand E st op = .ok v) :
    Describes E (operandLattice op lattice) v := by
  cases op with
  | copy t | move t => exact h t v ((evalOperand_temp rfl).1 hv)
  | constant c => exact hv
  | functionRef s => trivial
  | globalRef s => trivial

/-! ## Conversions -/

lemma conform_error {v : E.host.Val} (h : E.conform ty v = .error e)
    (hv : ∀ x, v ≠ .float x) : e = .stuck := by
  unfold Env.conform at h
  cases hk : E.kind ty <;> rw [hk] at h <;> cases v <;>
    first
      | exact absurd rfl (hv _)
      | (simp only [Host.conform] at h; cases h <;> rfl)

lemma convert_plain {tmp : AmirTemp} {op : AmirOperand} {v : E.host.Val}
    (h : tmp.isNullable = false ∨ v = .nil) :
    (operandTy? f op = some tmp.ty ∧ convert E f tmp op v = .ok v) ∨
      convert E f tmp op v = E.conform tmp.ty v := by
  unfold convert
  split
  next hty => exact .inl ⟨hty, rfl⟩
  · split
    next hbox =>
      rcases h with h | rfl
      · simp [h] at hbox
      · exact .inr (by simp [Env.conform, hbox.2, Host.conform])
    · exact .inr rfl

lemma allows_normalize
    (hpool : (normalizeLattice (.constant c) ty (some E.interner) pool).2.Extends E.pool)
    (hr : ∀ w, constValue E c = .ok w → r = E.conform ty w ∨ r = .ok w ∧ Fits E ty w) :
    Allows E (normalizeLattice (.constant c) ty (some E.interner) pool).1 r := by
  simp only [normalizeLattice] at hpool ⊢
  cases hnorm : normalizeConstant c ty (some E.interner) pool with
  | none => exact allows_overdefined r
  | some cp =>
    rw [hnorm] at hpool
    obtain ⟨w, hw, hfloat, hconform⟩ := normalizeConstant_sound hnorm hpool
    rcases hr w hw with rfl | ⟨rfl, hfits⟩
    · cases hc : E.conform ty w with
      | error e =>
        rw [conform_error hc hfloat]
        trivial
      | ok v => exact hconform v hc
    · exact normalizeConstant_fits hnorm hpool hw hfits

/-- An operand moved into a temp, by an assignment or as a block argument. -/
lemma allows_convert {tmp : AmirTemp} {op : AmirOperand} {v : E.host.Val}
    (hholds : Holds E lattice st) (hfits : TempsFit E f st) (hv : evalOperand E st op = .ok v)
    (hval : val = if tmp.isNullable then nilOnly (operandLattice op lattice)
      else operandLattice op lattice)
    (hpool : (normalizeLattice val tmp.ty (some E.interner) pool).2.Extends E.pool) :
    Allows E (normalizeLattice val tmp.ty (some E.interner) pool).1 (convert E f tmp op v) := by
  have hdesc := hholds.operand hv
  -- a temp of the same type holds a value of that type
  have hsame : operandTy? f op = some tmp.ty → Fits E tmp.ty v := by
    intro hty
    obtain ⟨t, ht, hmap⟩ := Option.bind_eq_some_iff.1 hty
    obtain ⟨tmp', htmp', hty'⟩ := Option.map_eq_some_iff.1 hmap
    obtain ⟨tmp'', htmp'', hf⟩ := hfits t v ((evalOperand_temp ht).1 hv)
    cases htmp'.symm.trans htmp''
    exact hty' ▸ hf
  have hconst : ∀ c, val = .constant c → constValue E c = .ok v →
      (tmp.isNullable = false ∨ v = .nil) →
      Allows E (normalizeLattice val tmp.ty (some E.interner) pool).1 (convert E f tmp op v) := by
    intro c hc hcv hplain
    subst hc
    refine allows_normalize hpool fun w hw => ?_
    cases hcv.symm.trans hw
    rcases @convert_plain E f tmp op v hplain with ⟨hty, heq⟩ | heq
    · exact .inr ⟨heq, hsame hty⟩
    · exact .inl heq
  cases hop : operandLattice op lattice with
  | undefined =>
    rw [hop] at hdesc
    cases hdesc
  | overdefined =>
    rw [hop] at hval
    have hover : val = .overdefined := by
      rw [hval]
      split <;> rfl
    rw [hover]
    exact allows_overdefined _
  | constant c =>
    rw [hop] at hval hdesc
    split at hval
    · -- nullable temps only know `nil`
      next hnull =>
      cases c with
      | nil =>
        have hnil : v = .nil := (Except.ok.inj hdesc).symm
        exact hconst .nil hval hdesc (.inr hnil)
      | _ =>
        have hover : val = .overdefined := hval
        rw [hover]
        exact allows_overdefined _
    next hnull => exact hconst c hval hdesc (.inl (by simpa using hnull))

/-! ## Assignments -/

def assignResult (E : Env) (f : AmirFunc) (st : State E.host) (tmp : AmirTemp)
    (rhs : AmirRvalue) : Res (E.host.Val × E.host.Heap) := do
  let vals ← evalOperands E st rhs.operands
  let (v, heap) ← Amir.evalRvalue E f st tmp.ty rhs vals
  let w ← assignValue E f tmp rhs v
  .ok (w, heap)

lemma execStmt_assign {lhs : TempId} {rhs : AmirRvalue} {tmp : AmirTemp}
    (htmp : f.temps[lhs]? = some tmp) :
    match assignResult E f st tmp rhs with
    | .ok (w, heap) => ∃ vals, execStmt E f st (.assign lhs rhs) = .ok
        ((({ st with heap := heap } : State E.host).setTemp lhs w).withTrace
          (st.trace ++ [(.assign lhs rhs, vals)]))
    | .error e => execStmt E f st (.assign lhs rhs) = .error e := by
  simp only [assignResult, execStmt, AmirStmt.operands, applyStmt, htmp]
  cases evalOperands E st rhs.operands with
  | error e => rfl
  | ok vals =>
    simp only [ok_bind]
    cases Amir.evalRvalue E f st tmp.ty rhs vals with
    | error e => rfl
    | ok vh =>
      obtain ⟨v, heap⟩ := vh
      simp only [ok_bind]
      cases assignValue E f tmp rhs v with
      | error e => rfl
      | ok w => exact ⟨vals, rfl⟩

lemma assignedLattice_pure {tmp : AmirTemp} {rhs : AmirRvalue}
    (h : (assignedLattice interner lattice pool tmp rhs).1 ≠ .overdefined) :
    rhs.isEffect = false := by
  by_contra heffect
  apply h
  have heval : evalRvalue rhs lattice pool = (.overdefined, pool) := by
    cases rhs <;> first | rfl | exact absurd rfl heffect
  unfold assignedLattice
  dsimp only
  rw [heval]
  split
  · rfl
  · split <;> rfl

section Assign

variable {lattice : List LatticeVal} {st : State E.host} {tmp : AmirTemp} {pool : AmirLiteralPool}
  {rhs : AmirRvalue}

lemma assignResult_pure (hrhs : rhs.isEffect = false) {vals : List E.host.Val}
    (hvals : evalOperands E st rhs.operands = .ok vals) :
    (assignResult E f st tmp rhs).map Prod.fst =
      readRvalue E f st tmp.ty rhs vals >>= assignValue E f tmp rhs := by
  simp only [assignResult, hvals, ok_bind, Amir.evalRvalue, hrhs]
  cases readRvalue E f st tmp.ty rhs vals with
  | error e => rfl
  | ok v =>
    simp only [ok_bind]
    show Except.map Prod.fst (assignValue E f tmp rhs v >>= fun w => .ok (w, st.heap)) = _
    cases assignValue E f tmp rhs v <;> rfl

lemma assignResult_heap (hrhs : rhs.isEffect = false) {w : E.host.Val}
    {heap : E.host.Heap} (h : assignResult E f st tmp rhs = .ok (w, heap)) : heap = st.heap := by
  simp only [assignResult, Amir.evalRvalue, hrhs, bind_eq_ok] at h
  obtain ⟨vals, -, ⟨v, heap'⟩, hread, w', -, hres⟩ := h
  cases hres
  obtain ⟨v', -, hv'⟩ := bind_eq_ok.1 hread
  cases hv'
  rfl

lemma assignResult_stuck (hvals : evalOperands E st rhs.operands = .error e)
    (he : e = .stuck) : Allows E val ((assignResult E f st tmp rhs).map Prod.fst) := by
  subst he
  simp only [assignResult, hvals]
  trivial

lemma allows_ofFold {r : Option (AmirConstant × AmirLiteralPool)}
    (hpool : (normalizeLattice (ofFold pool r).1 tmp.ty (some E.interner)
      (ofFold pool r).2).2.Extends E.pool) {u : Res E.host.Val}
    (hsound : ∀ c p w, r = some (c, p) → p.Extends E.pool → constValue E c = .ok w →
      u = E.conform tmp.ty w) :
    Allows E (normalizeLattice (ofFold pool r).1 tmp.ty (some E.interner) (ofFold pool r).2).1
      u := by
  cases r with
  | none => exact allows_overdefined _
  | some cp =>
    obtain ⟨c, p⟩ := cp
    refine allows_normalize hpool fun w hw => .inl ?_
    exact hsound c _ w rfl ((extends_normalizeLattice ..).trans hpool) hw

lemma assignedLattice_nullable (hnull : tmp.isNullable = true) :
    assignedLattice interner lattice pool tmp rhs =
      normalizeLattice (nilOnly (evalRvalue rhs lattice pool).1) tmp.ty interner
        (evalRvalue rhs lattice pool).2 := by
  simp [assignedLattice, hnull]

lemma assignedLattice_plain (hnull : tmp.isNullable = false) :
    assignedLattice interner lattice pool tmp rhs =
      if evaluationSafe rhs tmp.ty interner lattice pool then
        normalizeLattice (evalRvalue rhs lattice pool).1 tmp.ty interner
          (evalRvalue rhs lattice pool).2
      else (.overdefined, pool) := by
  cases hsafe : evaluationSafe rhs tmp.ty interner lattice pool <;>
    simp [assignedLattice, hnull, hsafe, normalizeLattice]

section

variable (hholds : Holds E lattice st)
include hholds

lemma allows_unary {op : UnaryOp} {x : AmirOperand}
    (hpool : (normalizeLattice (evalRvalue (.unary op x) lattice pool).1 tmp.ty (some E.interner)
      (evalRvalue (.unary op x) lattice pool).2).2.Extends E.pool) :
    Allows E (normalizeLattice (evalRvalue (.unary op x) lattice pool).1 tmp.ty (some E.interner)
      (evalRvalue (.unary op x) lattice pool).2).1
      ((assignResult E f st tmp (.unary op x)).map Prod.fst) := by
  cases hvals : evalOperands E st (unary op x).operands with
  | error e => exact assignResult_stuck hvals (evalOperands_error hvals)
  | ok vals =>
    obtain ⟨a, ha, rfl⟩ := evalOperands_singleton.1 hvals
    have hdesc := hholds.operand ha
    simp only [evalRvalue] at hpool ⊢
    cases hx : operandLattice x lattice with
    | undefined =>
      rw [hx] at hdesc
      cases hdesc
    | overdefined =>
      exact allows_overdefined _
    | constant c =>
      rw [hx] at hdesc hpool
      refine allows_ofFold hpool fun c' p w hfold hp hw => ?_
      obtain ⟨hop, (heval : E.host.evalUnary op tmp.ty a = .ok w)⟩ :=
        foldUnary_sound hfold hp hdesc hw
      rw [assignResult_pure rfl hvals]
      rcases hop with rfl | rfl | rfl <;> simp only [readRvalue, heval] <;> rfl

lemma allows_binary {op : BinaryOp} {l r : AmirOperand}
    (hsafe : evaluationSafe (.binary op l r) tmp.ty (some E.interner) lattice pool = true ∨
      (evalRvalue (.binary op l r) lattice pool).1 = .undefined)
    (hpool : (normalizeLattice (evalRvalue (.binary op l r) lattice pool).1 tmp.ty (some E.interner)
      (evalRvalue (.binary op l r) lattice pool).2).2.Extends E.pool) :
    Allows E (normalizeLattice (evalRvalue (.binary op l r) lattice pool).1 tmp.ty
      (some E.interner) (evalRvalue (.binary op l r) lattice pool).2).1
      ((assignResult E f st tmp (.binary op l r)).map Prod.fst) := by
  cases hvals : evalOperands E st (binary op l r).operands with
  | error e => exact assignResult_stuck hvals (evalOperands_error hvals)
  | ok vals =>
    obtain ⟨a, b, ha, hb, rfl⟩ := evalOperands_pair.1 hvals
    have hda := hholds.operand ha
    have hdb := hholds.operand hb
    simp only [evalRvalue] at hpool ⊢
    cases hl : operandLattice l lattice with
    | undefined =>
      rw [hl] at hda
      cases hda
    | overdefined => exact allows_overdefined _
    | constant lc =>
      cases hr : operandLattice r lattice with
      | undefined =>
        rw [hr] at hdb
        cases hdb
      | overdefined => exact allows_overdefined _
      | constant rc =>
        rw [hl] at hda hpool
        rw [hr] at hdb hpool
        refine allows_ofFold hpool fun c p w hfold hp hw => ?_
        -- two constants never evaluate to "unassigned"
        have hsafe :
            evaluationSafe (.binary op l r) tmp.ty (some E.interner) lattice pool = true := by
          rcases hsafe with hsafe | hundef
          · exact hsafe
          · simp [evalRvalue, hl, hr, hfold, ofFold] at hundef
        obtain ⟨u, hu, hconform⟩ := foldBinary_sound hfold hp
          (fun lv rv hlv hrv => safeAt_of_evaluationSafe hsafe hl hr hlv hrv) hda hdb hw
        rw [assignResult_pure rfl hvals]
        simp only [readRvalue, hu]
        exact hconform

lemma allows_use {op : AmirOperand} (hfits : TempsFit E f st)
    (hval : val =
      if tmp.isNullable then nilOnly (operandLattice op lattice) else operandLattice op lattice)
    (hpool : (normalizeLattice val tmp.ty (some E.interner) pool).2.Extends E.pool) :
    Allows E (normalizeLattice val tmp.ty (some E.interner) pool).1
      ((assignResult E f st tmp (.use op)).map Prod.fst) := by
  cases hvals : evalOperands E st (use op).operands with
  | error e => exact assignResult_stuck hvals (evalOperands_error hvals)
  | ok vals =>
    obtain ⟨v, hv, rfl⟩ := evalOperands_singleton.1 hvals
    rw [assignResult_pure rfl hvals]
    exact allows_convert hholds hfits hv hval hpool

end

lemma evalRvalue_binary_ne_nil {op : BinaryOp} {l r : AmirOperand} :
    (evalRvalue (.binary op l r) lattice pool).1 ≠ .constant .nil := by
  simp only [evalRvalue]
  split
  next lc rc _ _ =>
    cases hfold : foldBinary op lc rc pool with
    | none => simp [ofFold]
    | some cp =>
      obtain ⟨c, p⟩ := cp
      intro h
      cases h
      exact foldBinary_ne_nil hfold
  all_goals simp

/-- The value an assignment contributes foresees its outcome. -/
lemma allows_assigned (hholds : Holds E lattice st) (hfits : TempsFit E f st)
    (hpool : (assignedLattice (some E.interner) lattice pool tmp rhs).2.Extends E.pool) :
    Allows E (assignedLattice (some E.interner) lattice pool tmp rhs).1
      ((assignResult E f st tmp rhs).map Prod.fst) := by
  cases hnull : tmp.isNullable with
  | true =>
    rw [assignedLattice_nullable hnull] at hpool ⊢
    -- a nullable temp keeps `nil` and "unassigned", and learns nothing else
    have hother : ∀ {val : LatticeVal} {p : AmirLiteralPool}
        {r : Res E.host.Val}, val ≠ .constant .nil → val ≠ .undefined →
        Allows E (normalizeLattice (nilOnly val) tmp.ty (some E.interner) p).1 r := by
      intro val p r h₁ h₂
      match val with
      | .constant .nil => exact absurd rfl h₁
      | .constant (.bool _) => exact allows_overdefined _
      | .constant (.pool _) => exact allows_overdefined _
      | .undefined => exact absurd rfl h₂
      | .overdefined => exact allows_overdefined _
    cases rhs with
    | use op => exact allows_use hholds hfits (by rw [if_pos hnull]; rfl) hpool
    | unary op x =>
      by_cases hkeep : (evalRvalue (.unary op x) lattice pool).1 = .constant .nil ∨
          (evalRvalue (.unary op x) lattice pool).1 = .undefined
      · have hsame : nilOnly (evalRvalue (.unary op x) lattice pool).1 =
            (evalRvalue (.unary op x) lattice pool).1 := by
          rcases hkeep with h | h <;> rw [h] <;> rfl
        rw [hsame] at hpool ⊢
        exact allows_unary hholds hpool
      · exact hother (fun h => hkeep (.inl h)) (fun h => hkeep (.inr h))
    | binary op l r =>
      by_cases hundef : (evalRvalue (.binary op l r) lattice pool).1 = .undefined
      · have hsame : nilOnly (evalRvalue (.binary op l r) lattice pool).1 =
            (evalRvalue (.binary op l r) lattice pool).1 := by
          rw [hundef]
          rfl
        rw [hsame] at hpool ⊢
        exact allows_binary hholds (.inr hundef) hpool
      · exact hother evalRvalue_binary_ne_nil hundef
    | _ => exact allows_overdefined _
  | false =>
    rw [assignedLattice_plain hnull] at hpool ⊢
    split at hpool
    next hsafe =>
      rw [if_pos hsafe]
      cases rhs with
      | use op => exact allows_use hholds hfits (by rw [if_neg (by simp [hnull])]; rfl) hpool
      | unary op x => exact allows_unary hholds hpool
      | binary op l r => exact allows_binary hholds (.inl hsafe) hpool
      | _ => exact allows_overdefined _
    next hsafe =>
      rw [if_neg hsafe]
      exact allows_overdefined _

end Assign

end Describe

variable {b : BlockId} {args : List AmirOperand} {ts : List (Int × BlockId × List AmirOperand)}
  {r : Option (List AmirOperand)}

section Run

variable {E : Env} {f : AmirFunc} {a : Analysis} {st st' : State E.host} {target : BlockId}

/-! ## Edges -/

lemma switchArgs_some {x : List AmirOperand} (h : switchArgs target ts (some x) = some r) :
    r = some x ∧ ∀ v args, (v, target, args) ∈ ts → args = x := by
  induction ts with
  | nil =>
    cases h
    exact ⟨rfl, nofun⟩
  | cons t ts ih =>
    obtain ⟨n, dest, as⟩ := t
    simp only [switchArgs] at h
    split at h
    next hdest =>
      split at h
      · cases h
      next hsame =>
        obtain rfl : x = as := by simpa using hsame
        obtain ⟨hr, hall⟩ := ih h
        refine ⟨hr, fun v args hmem => ?_⟩
        rcases mem_cons.1 hmem with heq | hmem
        · cases heq
          rfl
        · exact hall v args hmem
    next hdest =>
      obtain ⟨hr, hall⟩ := ih h
      refine ⟨hr, fun v args hmem => ?_⟩
      rcases mem_cons.1 hmem with heq | hmem
      · cases heq
        exact absurd rfl hdest
      · exact hall v args hmem

lemma switchArgs_none (h : switchArgs target ts none = some r) {v : Int}
    (hmem : (v, target, args) ∈ ts) : r = some args := by
  induction ts with
  | nil => cases hmem
  | cons t ts ih =>
    simp only [switchArgs] at h
    split at h
    next hdest =>
      obtain ⟨hr, hall⟩ := switchArgs_some (by simpa using h)
      rcases mem_cons.1 hmem with heq | hmem
      · cases heq
        exact hr
      · rw [hr, hall v args hmem]
    next hdest =>
      rcases mem_cons.1 hmem with heq | hmem
      · cases heq
        exact absurd rfl hdest
      · exact ih h hmem

/-- Where an edge passes known arguments, every parallel edge passes the same. -/
lemma jumpArgsTo_edge {term : AmirTerminator} {t : BlockId} {args' : List AmirOperand}
    (hedge : (t, args) ∈ term.edges) (h : jumpArgsTo term t = some args') : args' = args := by
  cases term with
  | «return» => cases hedge
  | unreachable => cases hedge
  | goto u as | suspend fu u as =>
    obtain ⟨rfl, rfl⟩ : t = u ∧ args = as := by simpa [edges] using hedge
    simpa [jumpArgsTo] using h.symm
  | branch c u ua e ea =>
    simp only [jumpArgsTo] at h
    simp only [edges, mem_cons, not_mem_nil, or_false] at hedge
    split at h
    · cases h
    next hconflict =>
      rcases hedge with ⟨rfl, rfl⟩ | ⟨rfl, rfl⟩
      · simpa using h.symm
      split at h
      next heq =>
        -- both edges lead here: they agree on the arguments
        have hsame : ua = args := by
          by_contra hne
          exact hconflict ⟨heq, rfl, hne⟩
        exact (Option.some.inj h).symm.trans hsame
      · simpa using h.symm
  | switchInt d ts o =>
    simp only [jumpArgsTo] at h
    cases hsw : switchArgs t ts none with
    | none => simp [hsw] at h
    | some incoming =>
      rw [hsw] at h
      simp only at h
      simp only [edges, mem_append, mem_map, mem_singleton] at hedge
      rcases hedge with ⟨⟨v, u, as⟩, hmem, heq⟩ | heq
      · cases heq
        have hin := switchArgs_none hsw hmem
        subst hin
        split at h
        · split at h
          · cases h
          next hsame =>
            have : args = o.2 := by simpa using hsame
            exact (Option.some.inj h).symm.trans this.symm
        · exact (Option.some.inj h).symm
      · subst heq
        rw [if_pos rfl] at h
        split at h
        · cases h
        · exact (Option.some.inj h).symm

lemma constValue_eq_bool {x : Bool} (h : constValue E c = .ok (.bool x)) : c = .bool x := by
  cases c with
  | pool id =>
    simp only [constValue] at h
    split at h
    · split at h <;> cases h
    all_goals cases h
  | bool y =>
    cases h
    rfl
  | nil => cases h

/-- The edge a terminator takes is one the analysis left possible. -/
lemma Holds.feasible (h : Holds E lattice st) (hpool : pool.Extends E.pool) {term : AmirTerminator}
    (hrun : execTerminator E f st term = .running b st') :
    b ∈ feasibleTargets term lattice pool := by
  cases term with
  | «return» => cases hrun
  | unreachable => cases hrun
  | goto t args => simp [feasibleTargets, (jump_running.1 hrun).1]
  | suspend fu r args =>
    simp only [execTerminator] at hrun
    split at hrun
    · split at hrun
      · simp [feasibleTargets, (jump_running.1 hrun).1]
      · cases hrun
    · cases hrun
  | branch c t ta e fa =>
    simp only [execTerminator] at hrun
    simp only [feasibleTargets]
    split at hrun
    case h_1 hc | h_2 hc =>
      have hdesc := h.operand hc
      cases hlat : operandLattice c lattice with
      | constant cc =>
        rw [hlat] at hdesc
        rw [constValue_eq_bool hdesc]
        simp [(jump_running.1 hrun).1]
      | _ => simp [(jump_running.1 hrun).1]
    · cases hrun
    · cases hrun
  | switchInt d ts o =>
    simp only [execTerminator] at hrun
    split at hrun
    next n hd =>
      have hdesc := h.operand hd
      -- the block the run goes to, whether or not an arm matches
      have hall : b ∈ ts.map (fun t => t.2.1) ++ [o.1] := by
        split at hrun
        next v u args hfind =>
          rw [(jump_running.1 hrun).1]
          exact mem_append_left _ (mem_map_of_mem (mem_of_find?_eq_some hfind))
        · simp [(jump_running.1 hrun).1]
      simp only [feasibleTargets]
      cases hlat : operandLattice d lattice with
      | constant c =>
        rw [hlat] at hdesc
        simp only
        cases hval : constAsI128 c pool with
        | none => exact hall
        | some val =>
          obtain rfl : val = n := by
            have hint := constValue_of_constAsI128 hval hpool
            cases hint.symm.trans hdesc
            rfl
          split at hrun
          next v u args hfind => simp [hfind, (jump_running.1 hrun).1]
          next hfind => simp [hfind, (jump_running.1 hrun).1]
      | _ => exact hall
    · cases hrun
    · cases hrun

/-! ## The rewritten function -/

lemma apply_block (hb : b < f.blocks.length) : (apply f a).block b = { f.block b with
      terminator :=
        if b ≠ 0 ∧ a.reachable.getD b true = false then .unreachable
        else (trySimplifyTerminator (f.block b).terminator a.lattice a.pool).getD
          (f.block b).terminator } := by
  rw [block_eq_getElem hb, block_eq_getElem (by simpa [apply] using hb)]
  simp [apply]

lemma apply_block_missing (hb : f.blocks.length ≤ b) : (apply f a).block b = f.block b := by
  rw [block_of_length_le hb, block_of_length_le (by simpa [apply] using hb)]

lemma apply_ranges (b : BlockId) : ((apply f a).block b).statements = (f.block b).statements ∧
      ((apply f a).block b).params = (f.block b).params := by
  by_cases hb : b < f.blocks.length
  · rw [apply_block hb]
    exact ⟨rfl, rfl⟩
  · rw [apply_block_missing (not_lt.1 hb)]
    exact ⟨rfl, rfl⟩

lemma apply_blockParamsOf (b : BlockId) : (apply f a).blockParamsOf b = f.blockParamsOf b := by
  simp only [blockParamsOf, (apply_ranges b).2]
  rfl

lemma apply_blockStmts (b : BlockId) :
    (apply f a).blockStmts b = (f.blockStmts b).map (foldAssign a.lattice) := by
  unfold blockStmts blockStmtIds
  rw [(apply_ranges b).1, map_map]
  refine map_congr_left fun id hid => ?_
  -- the block owns the statement, so it was visited
  have hb : b < f.blocks.length := by
    by_contra hb
    rw [block_of_length_le (not_lt.1 hb)] at hid
    simp [AmirBasicBlock.missing, DenseRange.empty, DenseRange.iterIds] at hid
  have howned : (List.range f.blocks.length).any (fun b => decide (id ∈ f.blockStmtIds b)) = true :=
    any_eq_true.2 ⟨b, mem_range.2 hb, by simpa [blockStmtIds] using hid⟩
  simp only [stmt, apply, List.getD, getElem?_mapIdx, Function.comp]
  cases f.stmts[id]? with
  | none => rfl
  | some s => simp [howned]

lemma normalizeConstant_nil {pool' : AmirLiteralPool}
    (h : normalizeConstant .nil ty interner pool = some (c, pool')) : c = .nil := by
  unfold normalizeConstant at h
  dsimp only at h
  split at h
  · cases h
    rfl
  split at h
  · cases h
  · split at h
    · cases h
      rfl
    · cases h

/-- A constant contributed by an assignment is a converted one, and `nil` where the temp
is nullable. -/
lemma assignedLattice_constant {tmp : AmirTemp} {rhs : AmirRvalue}
    (h : (assignedLattice interner lattice pool tmp rhs).1 = .constant c) :
    (∃ c₀ p, normalizeConstant c₀ tmp.ty interner p =
      some (c, (assignedLattice interner lattice pool tmp rhs).2)) ∧
    (tmp.isNullable = true → c = .nil) := by
  have hnorm : ∀ {val : LatticeVal} {p : AmirLiteralPool},
      (normalizeLattice val tmp.ty interner p).1 = .constant c →
      ∃ c₀, val = .constant c₀ ∧ normalizeConstant c₀ tmp.ty interner p =
        some (c, (normalizeLattice val tmp.ty interner p).2) := by
    intro val p hval
    cases val with
    | undefined => cases hval
    | overdefined => cases hval
    | constant c₀ =>
      simp only [normalizeLattice] at hval ⊢
      cases hc : normalizeConstant c₀ tmp.ty interner p with
      | none =>
        rw [hc] at hval
        cases hval
      | some cp =>
        rw [hc] at hval
        cases hval
        exact ⟨c₀, rfl, hc⟩
  cases hnull : tmp.isNullable with
  | true =>
    rw [assignedLattice_nullable hnull] at h ⊢
    obtain ⟨c₀, hval, hc⟩ := hnorm h
    refine ⟨⟨c₀, _, hc⟩, fun _ => ?_⟩
    have hnil : c₀ = .nil := by
      unfold nilOnly at hval
      split at hval <;> cases hval
      rfl
    exact normalizeConstant_nil (hnil ▸ hc)
  | false =>
    rw [assignedLattice_plain hnull] at h ⊢
    refine ⟨?_, fun htrue => absurd htrue Bool.false_ne_true⟩
    split at h
    next hsafe =>
      obtain ⟨c₀, -, hc⟩ := hnorm h
      exact ⟨c₀, _, by rw [if_pos hsafe]; exact hc⟩
    · cases h

lemma execTerminator_simplified (hpool : a.pool = E.pool)
    (hholds : Holds E a.lattice st) {term term' : AmirTerminator}
    (h : trySimplifyTerminator term a.lattice a.pool = some term') :
    (execTerminator E f st term).isStuck ∨
      execTerminator E f st term' = execTerminator E f st term := by
  unfold trySimplifyTerminator at h
  split at h
  · -- branches
    next c t ta e fa =>
    cases hv : evalOperand E st c with
    | error why =>
      refine .inl ?_
      simp only [execTerminator, hv, evalOperand_error hv]
      trivial
    | ok v =>
      have hdesc := hholds.operand hv
      split at h
      case h_1 hlat | h_2 hlat =>
        cases h
        rw [hlat] at hdesc
        cases hdesc
        exact .inr (by simp only [execTerminator, hv])
      · cases h
  · -- switches
    next d ts o =>
    cases hv : evalOperand E st d with
    | error why =>
      refine .inl ?_
      simp only [execTerminator, hv, evalOperand_error hv]
      trivial
    | ok v =>
      have hdesc := hholds.operand hv
      split at h
      next c hlat =>
        obtain ⟨val, hval, hterm⟩ := Option.map_eq_some_iff.1 h
        rw [hlat] at hdesc
        have hint : constValue E c = .ok (.int val) :=
          constValue_of_constAsI128 hval (hpool ▸ .refl _)
        cases hint.symm.trans hdesc
        refine .inr ?_
        simp only [execTerminator, hv]
        rw [← hterm]
        cases ts.find? (fun t => t.1 == val) <;> rfl
      · cases h
  · cases h

/-! ## Runs -/

variable (hstable : Stable f (some E.interner) a) (hpool : a.pool = E.pool)

include hstable hpool

section

variable (hb : b ∈ reversePostOrder f) (hmarked : a.marked b = true)

include hb hmarked

lemma Holds.execStmt {s : AmirStmt} (hs : s ∈ f.blockStmts b) (h : Holds E a.lattice st)
    (hfits : TempsFit E f st) (hexec : execStmt E f st s = .ok st') : Holds E a.lattice st' := by
  intro t v hv
  by_cases hdef : s.def? = some t
  · -- the temp the statement defines exists
    obtain ⟨tmp, htmp, -⟩ := hfits.execStmt hexec t v hv
    cases s with
    | assign lhs rhs =>
      obtain rfl : lhs = t := Option.some.inj hdef
      obtain ⟨pool, hext, hbelow⟩ := hstable.assigns b hb hmarked lhs rhs tmp hs htmp
      have hallows := allows_assigned h hfits (hpool ▸ hext)
      have hassign := @execStmt_assign E f st lhs rhs tmp htmp
      cases hres : assignResult E f st tmp rhs with
      | error e =>
        rw [hres] at hassign
        rw [hassign] at hexec
        cases hexec
      | ok wh =>
        obtain ⟨w, heap⟩ := wh
        rw [hres] at hassign hallows
        obtain ⟨vals, hok⟩ := hassign
        cases hok.symm.trans hexec
        obtain rfl : w = v := by simpa [State.withTrace] using hv
        exact Describes.mono hallows hbelow
    | call lhs callee args =>
      have hcall : .call (some t) callee args ∈ f.blockStmts b := by
        have : lhs = some t := hdef
        exact this ▸ hs
      rw [hstable.calls b hb hmarked t callee args hcall (lt_of_getElem? htmp)]
      trivial
    | _ => cases hdef
  · rw [execStmt_temps hexec hdef] at hv
    exact h t v hv

lemma Holds.runStmts {ss : List AmirStmt} (hss : ∀ s ∈ ss, s ∈ f.blockStmts b)
    (h : Holds E a.lattice st) (hfits : TempsFit E f st) (hrun : runStmts E f ss st = .ok st') :
    Holds E a.lattice st' := by
  induction ss generalizing st with
  | nil =>
    cases hrun
    exact h
  | cons s ss ih =>
    obtain ⟨st₁, hexec, hrest⟩ := runStmts_cons_ok.1 hrun
    exact ih (fun s hs => hss s (mem_cons_of_mem _ hs))
      (h.execStmt hstable hpool hb hmarked (hss s mem_cons_self) hfits hexec)
      (hfits.execStmt hexec) hrest

lemma Holds.tookEdge (hwf : WellFormed f) {m : BlockId} (hpred : m ∈ f.predecessors b)
    (hm : a.marked m = true) (hedge : (b, args) ∈ (f.block m).terminator.edges)
    (h : Holds E a.lattice st) (hfits : TempsFit E f st) (htook : TookEdge E f st args b st') :
    Holds E a.lattice st' := by
  obtain ⟨heap, as, has, rfl⟩ := htook
  intro t w ht
  rcases setParams_temps_some ht with hmem | hold
  · obtain ⟨i, p, op, tmp, v, hp, hop, hid, htmp, hv, hw⟩ := paramValues_mem has hmem
    have hparam := hstable.params b hb hmarked m hpred hm i p hp
      (lt_of_getElem? htmp)
    have hid : t = p.id := hid
    rw [hid]
    cases hjump : jumpArgsTo (f.block m).terminator b with
    | none =>
      rw [hjump] at hparam
      rw [hparam]
      trivial
    | some args' =>
      rw [hjump] at hparam
      obtain rfl := jumpArgsTo_edge hedge hjump
      obtain ⟨pool, hext, hbelow⟩ := hparam
      rw [hop] at hext hbelow
      -- the parameter and its temp agree on type and nullability
      obtain ⟨tmp', htmp', hty⟩ := hwf.paramTemp b p (mem_of_getElem? hp)
      cases htmp.symm.trans htmp'
      have hnull : tempIsNullable f p.id = tmp.isNullable := by simp [tempIsNullable, htmp]
      simp only [contribution, hnull, ← hty] at hext hbelow
      have hheap : Holds E a.lattice { st with heap := heap } := h
      have hallows := allows_convert hheap hfits hv rfl (hpool ▸ hext)
      rw [hw] at hallows
      exact Describes.mono hallows hbelow
  · exact h t w hold

lemma execStmt_folded (hholds : Holds E a.lattice st) (hfits : TempsFit E f st) {lhs : TempId}
    {rhs : AmirRvalue} (hs : .assign lhs rhs ∈ f.blockStmts b)
    (hc : a.lattice.getD lhs .undefined = .constant c) :
    execStmt E f st (.assign lhs rhs) = .error .stuck ∨
      (execStmt E f st (.assign lhs (.use (.constant c)))).map State.observe =
        (execStmt E f st (.assign lhs rhs)).map State.observe := by
  cases htmp : f.temps[lhs]? with
  | none =>
    refine .inl ?_
    simp only [execStmt, applyStmt, htmp]
    cases hvals : evalOperands E st (AmirStmt.assign lhs rhs).operands with
    | error e => rw [evalOperands_error hvals]; rfl
    | ok vals => rfl
  | some tmp =>
    obtain ⟨pool, hext, hbelow⟩ := hstable.assigns b hb hmarked lhs rhs tmp hs htmp
    have hallows := allows_assigned hholds hfits (hpool ▸ hext)
    have hassign := @execStmt_assign E f st lhs rhs tmp htmp
    cases hres : assignResult E f st tmp rhs with
    | error e =>
      rw [hres] at hassign hallows
      rw [hc] at hbelow
      cases e with
      | stuck => exact .inl hassign
      | trap => cases Allows.mono hallows hbelow
    | ok wh =>
      obtain ⟨w, heap⟩ := wh
      rw [hres] at hassign hallows
      obtain ⟨vals, hok⟩ := hassign
      -- the contribution is the constant itself
      have hnew : (assignedLattice (some E.interner) a.lattice pool tmp rhs).1 = .constant c := by
        rw [hc] at hbelow
        rcases hbelow with h | h | h
        · rw [h] at hallows
          cases hallows
        · cases h
        · exact h
      have hvalue : constValue E c = .ok w := by
        rw [hnew] at hallows
        exact hallows
      obtain ⟨⟨c₀, p, hnorm⟩, hnil⟩ := assignedLattice_constant hnew
      have hpure := assignedLattice_pure (show _ ≠ LatticeVal.overdefined by rw [hnew]; simp)
      obtain rfl := assignResult_heap hpure hres
      have hfit : Fits E tmp.ty w := by
        obtain ⟨tmp', htmp', hfit⟩ := hfits.execStmt hok lhs w (State.setTemp_self ..)
        cases htmp.symm.trans htmp'
        exact hfit
      have hconvert : convert E f tmp (.constant c) w = .ok w := by
        unfold convert
        rw [if_neg (by simp [operandTy?])]
        split
        next hbox =>
          rw [hnil hbox.1] at hvalue
          cases hvalue
          rfl
        · exact conform_normalized hnorm (hpool ▸ hext) hvalue hfit
      have hconst : assignResult E f st tmp (.use (.constant c)) = .ok (w, st.heap) := by
        simp [assignResult, AmirRvalue.operands, evalOperands, evalOperand, hvalue,
          Amir.evalRvalue, AmirRvalue.isEffect, readRvalue, assignValue, hconvert]
      have hassign' := @execStmt_assign E f st lhs (.use (.constant c)) tmp htmp
      rw [hconst] at hassign'
      obtain ⟨vals', hok'⟩ := hassign'
      refine .inr ?_
      rw [hok, hok']
      refine congrArg Except.ok (State.observe_eq_iff.2 ⟨rfl, ?_⟩)
      simp only [State.withTrace_trace]
      rw [events_concat_assign _ _ rfl, events_concat_assign _ _ hpure]

end

variable (hwf : WellFormed f) (hcfg : f.CfgCovers) (hzero : a.marked 0 = true)
  (hinputs : ∀ t, (t ∈ f.params ∨ f.receiver = some t) → t < f.temps.length →
    a.lattice.getD t .undefined = .overdefined)
  {st₀ : State E.host} (hinit : IsInitial E f st₀)

include hwf hcfg hzero hinputs hinit

lemma reached (h : ReachesBlock E f st₀ b st) : a.marked b = true ∧ Holds E a.lattice st := by
  have hrpo : ∀ {b st}, ReachesBlock E f st₀ b st → b ∈ reversePostOrder f := by
    intro b st hb
    exact (mem_reversePostOrder hwf.nonempty).2 (hb.reachable.mono (edge_stored hcfg hwf.targets))
  refine ReachesBlock.induction (P := fun b st => a.marked b = true ∧ Holds E a.lattice st) ?_ ?_ h
  · -- inputs are unknown, everything else is unassigned
    refine ⟨hzero, fun t v hv => ?_⟩
    obtain ⟨tmp, htmp, -⟩ := hinit.fits t v hv
    rw [hinputs t (hinit.inputs t v hv) (lt_of_getElem? htmp)]
    trivial
  · intro b st b' st' hreach ⟨hmarked, hholds⟩ hstep
    have hreach' : ReachesBlock E f st₀ b' st' := hreach.step hstep
    obtain ⟨st₁, args, hrun, hedge, hterm, htook⟩ := step_running hstep
    have hfits := hreach.tempsFit hinit
    have hb := hrpo hreach
    have hholds₁ := hholds.runStmts hstable hpool hb hmarked (fun _ hs => hs) hfits hrun
    have hedge' : f.Edge b b' := mem_targets_of_mem_edges hedge
    obtain ⟨pool, hext, hfeasible⟩ := hstable.edges b hb hmarked
    have hmarked' := hfeasible b' (hholds₁.feasible (hpool ▸ hext) hterm) (hwf.targets b b' hedge')
    exact ⟨hmarked', hholds₁.tookEdge hstable hpool (hrpo hreach') hmarked' hwf
      ((hcfg.mirror b b').1 (hcfg.covers b b' hedge')) hmarked hedge (hfits.runStmts hrun) htook⟩

lemma reachedStmt {k : Nat} (h : ReachesStmt E f st₀ b k st) :
    b ∈ reversePostOrder f ∧ a.marked b = true ∧ Holds E a.lattice st ∧ TempsFit E f st := by
  obtain ⟨stb, hreach, hrun⟩ := h
  obtain ⟨hmarked, hholds⟩ := reached hstable hpool hwf hcfg hzero hinputs hinit hreach
  have hb := (mem_reversePostOrder hwf.nonempty).2
    (hreach.reachable.mono (edge_stored hcfg hwf.targets))
  have hfits := hreach.tempsFit hinit
  exact ⟨hb, hmarked, hholds.runStmts hstable hpool hb hmarked
    (fun s hs => mem_of_mem_take hs) hfits hrun, hfits.runStmts hrun⟩

lemma rewritesInPlace_apply : RewritesInPlace E f (apply f a) st₀ True where
  length b := by simp [apply_blockStmts]
  stmts b k s s' st hreach hs hs' := by
    obtain ⟨hb, hmarked, hholds, hfits⟩ :=
      reachedStmt hstable hpool hwf hcfg hzero hinputs hinit hreach
    have hs'eq : s' = foldAssign a.lattice s := by
      rw [apply_blockStmts, getElem?_map, hs] at hs'
      exact (Option.some.inj hs').symm
    have hmem := mem_of_getElem? hs
    rw [hs'eq]
    unfold foldAssign
    split
    next lhs rhs =>
      split
      next c hc =>
        rcases execStmt_folded hstable hpool hb hmarked hholds hfits hmem hc with h | h
        · exact .inl ⟨trivial, h⟩
        · exact .inr h
      · exact .inr rfl
    · exact .inr rfl
  terms b st hreach := by
    obtain ⟨hb, hmarked, hholds, -⟩ :=
      reachedStmt hstable hpool hwf hcfg hzero hinputs hinit hreach
    have hlt : b < f.blocks.length := by
      rw [reversePostOrder_eq hwf.nonempty] at hb
      exact lt_of_mem_dfsOrder hwf.nonempty hb
    rw [execTerminator_congr (f := f) (by rfl) apply_blockParamsOf, apply_block hlt]
    -- a marked block is not ended
    have hlive : ¬ (b ≠ 0 ∧ a.reachable.getD b true = false) := by
      unfold Analysis.marked at hmarked
      cases hget : a.reachable[b]? <;> simp_all
    simp only [if_neg hlive]
    cases hterm : trySimplifyTerminator (f.block b).terminator a.lattice a.pool with
    | none => exact .inr rfl
    | some term' =>
      rcases @execTerminator_simplified E f a st hpool hholds _ _ hterm with h | h
      · exact .inl ⟨trivial, h⟩
      · exact .inr (by rw [Option.getD_some, h])

end Run

/-! ## The pass -/

/-- `int`, `bool`. -/
def joinTypes : TypeInterner := ⟨[.primitive .int, .primitive .bool]⟩

def joinEnv : Env where
  interner := joinTypes
  pool := ⟨[.int ['5'], .int ['6']]⟩
  host := Host.lengths
  frame := fun _ => false

/-- `let x = if true then 5 else 6; return x + x`, where `_2` is the parameter `x` of bb3. -/
def constantJoin : AmirFunc :=
  let blocks : List AmirBasicBlock :=
    [ ⟨0, .empty, ⟨0, 1⟩, .branch (.copy 1) 1 [] 2 []⟩,
      ⟨1, .empty, .empty, .goto 3 [.constant (.pool 0)]⟩,
      ⟨2, .empty, .empty, .goto 3 [.constant (.pool 1)]⟩,
      ⟨3, ⟨0, 1⟩, ⟨1, 1⟩, .return⟩ ]
  { symbol := 0, returnType := 0, receiver := none, params := [], locals := [⟨0, 0, false, none⟩]
    temps := [⟨0, 0, true, false⟩, ⟨1, 1, true, false⟩, ⟨2, 0, true, false⟩], blocks := blocks
    blockParams := [⟨2, 0, 0, false⟩]
    stmts :=
      [ .assign 1 (.use (.constant (.bool true))), .assign 0 (.binary .add (.copy 2) (.copy 2)) ]
    cfg := computeCfgEdges blocks }

def joinCall : State Host.lengths := .ofInputs (h := Host.lengths) (0 : Int) () []

end Arandu.Mir.Sccp
