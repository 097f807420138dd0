import Arandu.Wasm.Stackify
import Arandu.Library.StructuredCode

/-!
# Running structured control flow

The meaning of the operations under the control rules of WebAssembly, and of a function as a walk
along its terminators. Both are driven by a sequence of decisions: the value that the condition or
discriminant of a block has when the block is executed.
-/

namespace Arandu.Wasm

open Arandu.Library Arandu.Amir

/-! ## Observations -/

inductive Event where
  | exec (block : BlockId)
  | store (target : BlockId) (args : List AmirOperand)
  | return
  | trap
deriving DecidableEq, Repr

/-- Storing no arguments is not observed. -/
def storeEvents (target : BlockId) (args : List AmirOperand) : List Event :=
  if args = [] then [] else [.store target args]

/-! ## Functions -/

/-- How a block is left. -/
inductive Leave where
  | return
  | trap
  | jump (target : BlockId) (args : List AmirOperand)

/-- What a terminator does under a decision. -/
def leave : AmirTerminator → Int → Leave
  | .return, _ => .return
  | .unreachable, _ => .trap
  | .goto target args, _ => .jump target args
  | .branch _ ifTrue trueArgs ifFalse falseArgs, d =>
    if d ≠ 0 then .jump ifTrue trueArgs else .jump ifFalse falseArgs
  | .switchInt _ targets otherwise, d =>
    match targets.find? (·.1 = d) with
    | some t => .jump t.2.1 t.2.2
    | none => .jump otherwise.1 otherwise.2
  | .suspend _ resume args, _ => .jump resume args

/-- What the graph prescribes from a block, until the decisions run out. -/
def cfgTrace (f : AmirFunc) : List Int → BlockId → List Event
  | [], _ => []
  | d :: ds, b =>
    .exec b ::
      match leave (f.block b).terminator d with
      | .return => [.return]
      | .trap => [.trap]
      | .jump t args => storeEvents t args ++ cfgTrace f ds t

/-! ## Operations -/

/-- A label on the control stack; a loop keeps the code that restarts it. -/
inductive Label where
  | block
  | loop (restart : List Op)

structure Machine where
  code : List Op
  labels : List Label
  decision : Int
  ahead : List Int

def nesting : Op → Nesting
  | .loopBegin _ | .blockBegin _ => .opens
  | .loopEnd | .blockEnd _ => .closes
  | _ => .neutral

/-- `br`: a block is left behind its end, a loop is restarted. -/
def Machine.branch (m : Machine) (depth : Nat) : Option Machine :=
  match m.labels[depth]? with
  | none => none
  | some .block =>
    (exitScopes nesting m.code depth).map fun code =>
      { m with code, labels := m.labels.drop (depth + 1) }
  | some (.loop restart) => some { m with code := restart, labels := m.labels.drop (depth + 1) }

/-- One operation: what is observed, and the machine after it unless the run is over. Without a
result the code is invalid: it ends, closes a scope that is not open or leaves too many. -/
def Machine.step (m : Machine) : Option (List Event × Option Machine) :=
  match m.code with
  | [] => none
  | op :: code =>
    let next := { m with code }
    match op with
    | .loopBegin _ => some ([], some { next with labels := .loop m.code :: m.labels })
    | .blockBegin _ => some ([], some { next with labels := .block :: m.labels })
    | .loopEnd | .blockEnd _ =>
      match m.labels with
      | [] => none
      | _ :: labels => some ([], some { next with labels })
    | .blockContent b =>
      match m.ahead with
      | [] => some ([], none)
      | d :: ds => some ([.exec b], some { next with decision := d, ahead := ds })
    | .argStore target args => some (storeEvents target args, some next)
    | .br depth target args =>
      (next.branch depth).map fun m => (storeEvents target args, some m)
    | .brIf depth target args _ invert =>
      if (m.decision != 0) != invert then
        (next.branch depth).map fun m => (storeEvents target args, some m)
      else some ([], some next)
    | .brIfEq depth target args _ value =>
      if m.decision = value then
        (next.branch depth).map fun m => (storeEvents target args, some m)
      else some ([], some next)
    | .brTable depths defaultDepth _ otherwise args =>
      let depth :=
        if 0 ≤ m.decision then depths.getD m.decision.toNat defaultDepth else defaultDepth
      (next.branch depth).map fun m => (storeEvents otherwise args, some m)
    | .return => some ([.return], none)
    | .trap => some ([.trap], none)

/-- What is observed until the run is over. -/
def Machine.run : Nat → Machine → Option (List Event)
  | 0, _ => none
  | fuel + 1, m =>
    match m.step with
    | none => none
    | some (es, none) => some es
    | some (es, some m') => (run fuel m').map (es ++ ·)

/-- The machine at the start of some operations. -/
def Machine.start (ops : List Op) (decisions : List Int) : Machine := ⟨ops, [], 0, decisions⟩

/-! ## Nesting -/

inductive Scope where
  | loop
  | block (label : BlockId)
deriving DecidableEq

/-- The depths that an operation may branch to. -/
def Op.depths : Op → List Nat
  | .br depth _ _ | .brIf depth _ _ _ _ | .brIfEq depth _ _ _ _ => [depth]
  | .brTable depths defaultDepth _ _ _ => defaultDepth :: depths
  | _ => []

/-- Ends match the innermost open scope, all scopes are closed, and no branch leaves more scopes
than are open. -/
def Nests : List Scope → List Op → Prop
  | scopes, [] => scopes = []
  | scopes, op :: ops =>
    match op with
    | .loopBegin _ => Nests (.loop :: scopes) ops
    | .blockBegin l => Nests (.block l :: scopes) ops
    | .loopEnd => ∃ rest, scopes = .loop :: rest ∧ Nests rest ops
    | .blockEnd l => ∃ rest, scopes = .block l :: rest ∧ Nests rest ops
    | op => (∀ d ∈ op.depths, d < scopes.length) ∧ Nests scopes ops

/-! ## Sequences of steps -/

/-- Some steps lead from a machine to another with the given observations. -/
inductive Steps : Machine → List Event → Machine → Prop
  | refl (m : Machine) : Steps m [] m
  | step {m m₁ m' : Machine} {es es' : List Event} (h : m.step = some (es, some m₁))
      (rest : Steps m₁ es' m') : Steps m (es ++ es') m'

variable {es es' : List Event} {m m' m₁ : Machine}

lemma Steps.trans {m₂ : Machine} (h : Steps m es m₁)
    (h' : Steps m₁ es' m₂) : Steps m (es ++ es') m₂ := by
  induction h with
  | refl => exact h'
  | step hstep _ ih =>
    rw [List.append_assoc]
    exact .step hstep (ih h')

lemma Steps.one (h : m.step = some (es, some m')) : Steps m es m' := by
  have := Steps.step h (.refl m')
  rwa [List.append_nil] at this

lemma Steps.quiet (h : m.step = some ([], some m₁)) (rest : Steps m₁ es m') : Steps m es m' :=
  .step h rest

lemma Steps.run (h : Steps m es m')
    (hrun : ∃ fuel, m'.run fuel = some es') : ∃ fuel, m.run fuel = some (es ++ es') := by
  induction h with
  | refl => exact hrun
  | step hstep _ ih =>
    obtain ⟨fuel, hfuel⟩ := ih hrun
    refine ⟨fuel + 1, ?_⟩
    rw [Machine.run, hstep]
    dsimp only
    rw [hfuel, List.append_assoc]
    rfl

lemma run_stop (h : m.step = some (es, none)) : ∃ fuel, m.run fuel = some es := by
  refine ⟨1, ?_⟩
  rw [Machine.run, h]

end Arandu.Wasm
