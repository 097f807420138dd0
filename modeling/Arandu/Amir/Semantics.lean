import Arandu.Amir.Value

/-!
# Execution of AMIR functions

A state holds the temps, the private locals, the shared heap and the trace of executed
statements with their operand values. Statements of a block run one after another; the
terminator then moves to the next block, assigning its parameters simultaneously. One
`step` executes one whole block, and a run iterates `step`.

Locals in `Env.frame` live in shared memory, where callees can see them; every other
local is private to the function.
-/

namespace Arandu.Amir

open Arandu.Library

/-- Everything a run depends on besides the function and its state. -/
structure Env where
  interner : TypeInterner
  pool : AmirLiteralPool
  host : Host
  /-- Locals that live in shared memory. -/
  frame : LocalId → Bool

namespace Env

variable (E : Env)

def kind (ty : TypeId) : ScalarKind :=
  (E.interner.resolve ty).scalarKind E.host.ptrBits

/-- `conform` at a type of this environment. -/
def conform (ty : TypeId) (v : E.host.Val) : Res E.host.Val :=
  E.host.conform (E.kind ty) ty v

end Env

/-- The executed statements, oldest first, with the values of their operands. -/
abbrev Trace (h : Host) := List (AmirStmt × List h.Val)

structure State (h : Host) where
  temps : TempId → Option h.Val
  heap : h.Heap
  slots : LocalId → h.Slot
  trace : Trace h

namespace State

variable {h : Host} (st : State h)

def setTemp (t : TempId) (v : h.Val) : State h :=
  { st with temps := fun u => if u = t then some v else st.temps u }

def setSlot (l : LocalId) (s : h.Slot) : State h :=
  { st with slots := fun k => if k = l then s else st.slots k }

@[simp] lemma setTemp_self (t : TempId) (v : h.Val) :
    (st.setTemp t v).temps t = some v := by simp [setTemp]

lemma setTemp_of_ne {t u : TempId} (v : h.Val) (hne : u ≠ t) :
    (st.setTemp t v).temps u = st.temps u := by simp [setTemp, hne]

end State

/-! ## Operands -/

section Exec

variable (E : Env) (f : AmirFunc)

/-- The value a constant denotes. -/
def constValue (c : AmirConstant) : Res E.host.Val :=
  match c with
  | .bool b => .ok (.bool b)
  | .nil => .ok .nil
  | .pool id =>
    match E.pool.get? id with
    | some (.int s) =>
      match parseIntLiteral s with
      | some n => .ok (.int n)
      | none => .error .stuck
    | some (.char s) => .ok (.char (E.host.charLit s))
    | some (.float s) => .ok (.float (E.host.floatLit (.float s)))
    | some (.floatBits n) => .ok (.float (E.host.floatLit (.floatBits n)))
    | some e => .ok (.obj (E.host.strLit e))
    | none => .error .stuck

variable (st : State E.host)

/-- A temp that was never assigned has no value to read. -/
def readTemp (t : TempId) : Res E.host.Val :=
  match st.temps t with
  | some v => .ok v
  | none => .error .stuck

def evalOperand : AmirOperand → Res E.host.Val
  | .copy t | .move t => readTemp E st t
  | .constant c => constValue E c
  | .functionRef s | .globalRef s => .ok (.obj (E.host.symbol s))

def evalOperands : List AmirOperand → Res (List E.host.Val)
  | [] => .ok []
  | op :: ops => do
    let v ← evalOperand E st op
    let vs ← evalOperands ops
    .ok (v :: vs)

def operandTy? (op : AmirOperand) : Option TypeId :=
  op.temp?.bind fun t => (f.temps[t]?).map AmirTemp.ty

def pointerBase (op : AmirOperand) : Bool :=
  match operandTy? f op with
  | some ty => (E.interner.resolve ty).isPointer
  | none => false

/-- Assigning an operand to a temp: a copy between equal types keeps the value, a copy
between different types converts it (the lowering of `as` casts and of `T` to `T?`). -/
def convert (t : AmirTemp) (op : AmirOperand) (v : E.host.Val) : Res E.host.Val :=
  if operandTy? f op = some t.ty then .ok v
  else if t.isNullable = true ∧ E.kind t.ty = .other then
    match v with
    | .nil => .ok .nil
    | v => .ok (E.host.box t.ty v)
  else E.conform t.ty v

/-! ## Rvalues -/

/-- Rvalues that change shared memory. -/
def AmirRvalue.isEffect : AmirRvalue → Bool
  | .alloc _ | .genInsert _ _ | .genGet _ _ | .genSet _ _ _ | .genUpsert _ _ _
  | .genRemove _ _ | .blackBox _ _ => true
  | _ => false

/-- The local whose storage an rvalue names. -/
def AmirRvalue.placeLocal? : AmirRvalue → Option LocalId
  | .load p | .borrow p | .borrowMut p => some p.localId
  | .relativeBorrow l _ => some l
  | _ => none

/-- Number of elements of a run-time sequence. -/
def lengthOf (v : E.host.Val) : Option Nat :=
  match v with
  | .obj o => E.host.objLen o
  | _ => none

/-- Private contents of a local; `none` when it lives in shared memory. -/
def slotOf (l : LocalId) : Option E.host.Slot :=
  if E.frame l then none else some (st.slots l)

/-- Value of an rvalue that leaves memory alone, from the values of its operands. -/
def readRvalue (ty : TypeId) (rv : AmirRvalue) (vals : List E.host.Val) : Res E.host.Val :=
  match rv, vals with
  | .use _, [v] => .ok v
  | .binary op _ _, [a, b] => E.host.evalBinary (E.kind ty).intShape? op ty a b
  | .unary .neg _, [v] => E.host.evalUnary .neg ty v
  | .unary .not _, [v] => E.host.evalUnary .not ty v
  | .unary .bitNot _, [v] => E.host.evalUnary .bitNot ty v
  | .fieldAccess base i, [v] =>
    if pointerBase E f base then E.host.read (AmirRvalue.fieldAccess base i).shape ty [v] st.heap
    else E.host.field i v
  | .len _, [v] =>
    match lengthOf E v with
    | some n => .ok (.int n)
    | none => .error .stuck
  | .indexAccess _ _ inBounds, [b, .int i] =>
    match lengthOf E b with
    | some n =>
      if inBounds = true ∨ (0 ≤ i ∧ i < n) then E.host.index st.heap b (.int i)
      else .error .trap
    | none => .error .stuck
  | .indexAccess _ _ _, _ => .error .stuck
  | rv, vals =>
    match rv.placeLocal? with
    | some l => E.host.place rv.shape ty vals st.heap (slotOf E st l)
    | none => E.host.read rv.shape ty vals st.heap

def evalRvalue (ty : TypeId) (rv : AmirRvalue) (vals : List E.host.Val) :
    Res (E.host.Val × E.host.Heap) :=
  if rv.isEffect then E.host.effect rv.shape ty vals st.heap
  else do
    let v ← readRvalue E f st ty rv vals
    .ok (v, st.heap)

/-- Bring the result of `rv` into temp `t`. -/
def assignValue (t : AmirTemp) (rv : AmirRvalue) (v : E.host.Val) : Res E.host.Val :=
  match rv with
  | .use op => convert E f t op v
  | _ => E.conform t.ty v

/-! ## Statements -/

/-- Effect of a statement once its operands are evaluated. -/
def applyStmt (s : AmirStmt) (vals : List E.host.Val) : Res (State E.host) :=
  match s with
  | .assign lhs rv =>
    match f.temps[lhs]? with
    | none => .error .stuck
    | some t => do
      let (v, heap) ← evalRvalue E f st t.ty rv vals
      let w ← assignValue E f t rv v
      .ok ({ st with heap := heap }.setTemp lhs w)
  | .store p _ =>
    match vals.getLast? with
    | none => .error .stuck
    | some v =>
      let shape := p.mapOperands fun _ => .constant .nil
      if E.frame p.localId || p.hasDeref then do
        let heap ← E.host.storeHeap shape vals.dropLast st.heap (slotOf E st p.localId) v
        .ok { st with heap := heap }
      else do
        let slot ← E.host.storeSlot shape vals.dropLast (st.slots p.localId) v
        .ok (st.setSlot p.localId slot)
  | .call lhs _ _ =>
    match vals with
    | [] => .error .stuck
    | callee :: args => do
      let (v, heap) ← E.host.call callee args st.heap
      match lhs with
      | none => .ok { st with heap := heap }
      | some t =>
        match f.temps[t]? with
        | none => .error .stuck
        | some tmp => do
          let w ← E.conform tmp.ty v
          .ok ({ st with heap := heap }.setTemp t w)
  | .free _ =>
    match vals with
    | [v] => do
      let heap ← E.host.free v st.heap
      .ok { st with heap := heap }
    | _ => .error .stuck
  | .storageLive l => .ok (storage st true l)
  | .storageDead l => .ok (storage st false l)
  | .destroy p => do
    let shape := p.mapOperands fun _ => .constant .nil
    let (heap, slot) ← E.host.destroy shape vals st.heap (slotOf E st p.localId)
    match slot with
    | some s => .ok ({ st with heap := heap }.setSlot p.localId s)
    | none => .ok { st with heap := heap }
  | .nop => .ok st
where
  storage (st : State E.host) (live : Bool) (l : LocalId) : State E.host :=
    if E.frame l then { st with heap := E.host.storageHeap live l st.heap }
    else st.setSlot l (E.host.storageSlot live l)

/-- Execute one statement and record it. -/
def execStmt (s : AmirStmt) : Res (State E.host) := do
  let vals ← evalOperands E st s.operands
  let st' ← applyStmt E f st s vals
  .ok { st' with trace := st'.trace ++ [(s, vals)] }

/-- Execute statements until one does not complete; the state then is the last one. -/
def runStmts : List AmirStmt → State E.host → Except (Stop × State E.host) (State E.host)
  | [], st => .ok st
  | s :: ss, st =>
    match execStmt E f st s with
    | .ok st' => runStmts ss st'
    | .error e => .error (e, st)

/-! ## Terminators -/

def paramValues : List BlockParam → List AmirOperand →
    Res (List (TempId × E.host.Val))
  | [], [] => .ok []
  | p :: ps, op :: ops =>
    match f.temps[p.id]? with
    | none => .error .stuck
    | some t => do
      let v ← evalOperand E st op
      let w ← convert E f t op v
      let rest ← paramValues ps ops
      .ok ((p.id, w) :: rest)
  | _, _ => .error .stuck

/-- Assign parameters left to right; all values were computed beforehand. -/
def setParams (assignments : List (TempId × E.host.Val)) : State E.host :=
  assignments.foldl (fun st a => st.setTemp a.1 a.2) st

inductive Outcome (h : Host) where
  | returned (value : Option h.Val)
  | stopped (why : Stop)
  | unreachable

inductive Config (h : Host) where
  | running (b : BlockId) (st : State h)
  | halted (o : Outcome h) (st : State h)

/-- Follow an edge. -/
def jump (target : BlockId) (args : List AmirOperand) : Config E.host :=
  match paramValues E f st (f.blockParamsOf target) args with
  | .ok assignments => .running target (setParams E st assignments)
  | .error e => .halted (.stopped e) st

def execTerminator (term : AmirTerminator) : Config E.host :=
  match term with
  | .return => .halted (.returned (st.temps 0)) st
  | .unreachable => .halted .unreachable st
  | .goto t args => jump E f st t args
  | .branch c t ta e fa =>
    match evalOperand E st c with
    | .ok (.bool true) => jump E f st t ta
    | .ok (.bool false) => jump E f st e fa
    | .ok _ => .halted (.stopped .stuck) st
    | .error why => .halted (.stopped why) st
  | .switchInt d targets otherwise =>
    match evalOperand E st d with
    | .ok (.int n) =>
      match targets.find? (fun t => t.1 == n) with
      | some (_, b, args) => jump E f st b args
      | none => jump E f st otherwise.1 otherwise.2
    | .ok _ => .halted (.stopped .stuck) st
    | .error why => .halted (.stopped why) st
  | .suspend fu r args =>
    match evalOperand E st fu with
    | .ok v =>
      match E.host.suspend v st.heap with
      | .ok heap => jump E f { st with heap := heap } r args
      | .error why => .halted (.stopped why) st
    | .error why => .halted (.stopped why) st

/-! ## Runs -/

/-- Execute the block a configuration stands at. -/
def step : Config E.host → Config E.host
  | .running b st =>
    match runStmts E f (f.blockStmts b) st with
    | .ok st' => execTerminator E f st' (f.block b).terminator
    | .error (why, st') => .halted (.stopped why) st'
  | c => c

def runN (n : Nat) (c : Config E.host) : Config E.host := (step E f)^[n] c

def Fits (ty : TypeId) (v : E.host.Val) : Prop := ∃ w, E.conform ty w = .ok v

/-- An arbitrary input: only parameters and the receiver hold values, each represented as
its type asks for; heap and locals are arbitrary. -/
structure IsInitial (st : State E.host) : Prop where
  inputs : ∀ t v, st.temps t = some v → t ∈ f.params ∨ f.receiver = some t
  fits : ∀ t v, st.temps t = some v → ∃ tmp, f.temps[t]? = some tmp ∧ Fits E tmp.ty v
  trace : st.trace = []

/-- The run from `st₀` stands at the start of block `b` in state `st`. -/
def ReachesBlock (st₀ : State E.host) (b : BlockId) (st : State E.host) : Prop :=
  ∃ n, runN E f n (.running 0 st₀) = .running b st

/-- The run from `st₀` is about to execute statement number `k` of block `b`. -/
def ReachesStmt (st₀ : State E.host) (b : BlockId) (k : Nat) (st : State E.host) : Prop :=
  ∃ stb, ReachesBlock E f st₀ b stb ∧ runStmts E f ((f.blockStmts b).take k) stb = .ok st

end Exec

/-! ## A host for concrete runs -/

/-- Objects are sequences known by their length, memory holds one number, and every
operation the core does not compute is missing. -/
def Host.lengths : Host where
  Obj := Nat
  Flt := Unit
  Heap := Int
  Slot := Unit
  ptrBits := 64
  minRemTraps := false
  floatLit := fun _ => ()
  charLit := fun _ => 0
  strLit := fun _ => 0
  symbol := fun _ => 0
  objLen := some
  floatToInt := fun _ _ => none
  intToFloat := fun _ _ => ()
  roundFloat := fun _ _ => ()
  box := fun _ v => v
  unary := fun _ _ _ => .error .stuck
  binary := fun _ _ _ _ => .error .stuck
  binary_comm := fun _ _ _ _ _ => rfl
  field := fun _ _ => .error .stuck
  index := fun _ _ _ => .ok (.int 0)
  read := fun _ _ _ _ => .error .stuck
  effect := fun _ _ _ _ => .error .stuck
  place := fun _ _ _ _ _ => .error .stuck
  storeSlot := fun _ _ _ _ => .error .stuck
  storeHeap := fun _ _ _ _ _ => .error .stuck
  destroy := fun _ _ heap slot => .ok (heap, slot)
  free := fun _ heap => .ok heap
  storageSlot := fun _ _ => ()
  storageHeap := fun _ _ heap => heap
  call := fun _ _ heap => .ok (.nil, heap)
  suspend := fun _ heap => .ok heap

def State.ofInputs {h : Host} (heap : h.Heap) (slot : h.Slot) (inputs : List (TempId × h.Val)) :
    State h where
  temps := fun t => (inputs.find? fun i => i.1 == t).map Prod.snd
  heap := heap
  slots := fun _ => slot
  trace := []

lemma isInitial_ofInputs {E : Env} {f : AmirFunc} {heap : E.host.Heap} {slot : E.host.Slot}
    {inputs : List (TempId × E.host.Val)}
    (hinputs : ∀ i ∈ inputs, i.1 ∈ f.params ∨ f.receiver = some i.1)
    (hfits : ∀ i ∈ inputs, ∃ tmp, f.temps[i.1]? = some tmp ∧ Fits E tmp.ty i.2) :
    IsInitial E f (.ofInputs heap slot inputs) := by
  have hmem : ∀ t v, (State.ofInputs heap slot inputs).temps t = some v → (t, v) ∈ inputs := by
    intro t v hv
    obtain ⟨⟨u, w⟩, hfind, rfl⟩ := Option.map_eq_some_iff.1 hv
    have hu : u = t := by simpa using List.find?_some hfind
    exact hu ▸ List.mem_of_find?_eq_some hfind
  exact ⟨fun t v hv => hinputs _ (hmem t v hv), fun t v hv => hfits _ (hmem t v hv), rfl⟩

end Arandu.Amir
