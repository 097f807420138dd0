import Arandu.Amir.Dominators
import Mathlib.Data.List.Sort

/-!
# Structured control flow for wasm

`stackify.rs` turns the control-flow graph of a function into a flat sequence of structured control
operations. Blocks are laid out in an order; every target of a forward branch gets a `block` scope
that ends right before its content, and every loop header a `loop` scope.
-/

namespace Arandu.Wasm

open Arandu.Library Arandu.Amir

/-! ## Operations -/

/-- Branches carry the arguments that are stored before they are taken. -/
inductive Op where
  | loopBegin (header : BlockId)
  | loopEnd
  | blockBegin (label : BlockId)
  | blockEnd (label : BlockId)
  | blockContent (block : BlockId)
  | br (depth : Nat) (target : BlockId) (args : List AmirOperand)
  | brIf (depth : Nat) (target : BlockId) (args : List AmirOperand) (condition : AmirOperand)
      (invert : Bool)
  | brIfEq (depth : Nat) (target : BlockId) (args : List AmirOperand) (discriminant : AmirOperand)
      (value : Int)
  | brTable (depths : List Nat) (defaultDepth : Nat) (discriminant : AmirOperand)
      (otherwise : BlockId) (args : List AmirOperand)
  | argStore (target : BlockId) (args : List AmirOperand)
  | return
  | trap
deriving DecidableEq, Repr

inductive ScopeKind where
  | loop (maxRank : Nat)
  | block
deriving DecidableEq, Repr

/-- A scope stack is a list with the innermost frame first. -/
structure StackFrame where
  label : BlockId
  kind : ScopeKind
deriving DecidableEq, Repr

/-- The internal errors; the one about an empty scope stack cannot be raised, since only the frame
on top is closed. -/
inductive StackifyError where
  | crossingScopes
  | noActiveLabel
deriving DecidableEq, Repr

/-! ## The order of the blocks -/

def rank (rpo : List BlockId) (b : BlockId) : Option Nat :=
  if b ∈ rpo then some (rpo.idxOf b) else none

variable (f : AmirFunc)

def reachedFrom (succ : BlockId → List BlockId) (b : BlockId) : List BlockId :=
  floodLoop f.blocks.length succ (1 + ∑ b ∈ Finset.range f.blocks.length, (succ b).length) [] [b]

/-- The positions of the joins, after a predecessor of a trap and up to the trap itself, that a
sibling of the trap reaches. -/
def joinPositions (rpo : List BlockId) (cursor : Nat) (trap pred : BlockId) : List Nat :=
  match rank rpo pred with
  | none => []
  | some predIndex =>
    if (f.successors pred).length < 2 then []
    else
      ((f.successors pred).filter (· ≠ trap)).flatMap fun sibling =>
        (reachedFrom f f.successors sibling).filterMap fun block =>
          if block ≠ trap ∧ 1 < (f.predecessors block).length then
            match rank rpo block with
            | some index => if predIndex < index ∧ index ≤ cursor then some index else none
            | none => none
          else none

/-- Where a trap is moved: the earliest of those positions. -/
def hoistCandidate (rpo : List BlockId) (cursor : Nat) (trap : BlockId) : Option Nat :=
  ((f.predecessors trap).flatMap (joinPositions f rpo cursor trap)).min?

/-- `hoist_unreachable_blocks_before_joins`; without a result the loop has not ended. -/
def hoistUnreachable : Nat → List BlockId → Nat → Option (List BlockId)
  | 0, _, _ => none
  | fuel + 1, rpo, cursor =>
    match rpo[cursor]? with
    | none => some rpo
    | some b =>
      if (f.block b).terminator = .unreachable then
        match hoistCandidate f rpo cursor b with
        | some index => hoistUnreachable fuel ((rpo.eraseIdx cursor).insertIdx index b) cursor
        | none => hoistUnreachable fuel rpo (cursor + 1)
      else hoistUnreachable fuel rpo (cursor + 1)

/-! ## Loops -/

def naturalLoop (header latch : BlockId) : List BlockId :=
  reachedFrom f (fun b => if b = header then [] else (f.predecessors b).filter (· ≠ header)) latch

def latchMaxRank (rpo : List BlockId) (header latch : BlockId) (headerRank : Nat) : Nat :=
  (naturalLoop f header latch).foldl
    (fun max b => if b = header then max else Nat.max max ((rank rpo b).getD 0)) headerRank

variable (doms : Dominators)

/-- `loop_max_rank` of a block, if it is a loop header. -/
def loopMaxRank (rpo : List BlockId) (header : BlockId) : Option Nat :=
  let headerRank := (rank rpo header).getD 0
  (((f.predecessors header).filter fun pred =>
      doms.dominates header pred && headerRank ≤ (rank rpo pred).getD 0).map fun pred =>
    latchMaxRank f rpo header pred headerRank).max?

/-! ## Landings -/

def forwardTargets (rpo : List BlockId) (b : BlockId) : List BlockId :=
  (f.successors b).filter fun t => (rank rpo b).getD 0 < (rank rpo t).getD 0

/-- `forward_preds` of a block. -/
def forwardPreds (rpo : List BlockId) (t : BlockId) : List BlockId :=
  rpo.flatMap fun b => ((forwardTargets f rpo b).filter (· = t)).map fun _ => b

def ancestors : Nat → BlockId → List BlockId
  | 0, b => [b]
  | fuel + 1, b =>
    match doms.immediateDominator b with
    | some idom => if idom = b then [b] else b :: ancestors fuel idom
    | none => [b]

def ncdPair (a b : BlockId) : BlockId :=
  if a = b then a
  else
    ((ancestors doms doms.count b).find? fun x => decide (x ∈ ancestors doms doms.count a)).getD a

/-- The nearest common dominator of the forward predecessors of a block. -/
def ncdOf (rpo : List BlockId) (t : BlockId) : Option BlockId :=
  match forwardPreds f rpo t with
  | [] => none
  | p :: ps => some (ps.foldl (ncdPair doms) p)

/-- One round of the loop that hoists the opening of a landing over the scopes it would cross. -/
def hoistRound (rpo : List BlockId) (earlier loops : List (BlockId × Nat)) (finish start : Nat) :
    Nat :=
  loops.foldl (fun start hl =>
      let loopStart := (rank rpo hl.1).getD 0
      if loopStart ≤ start ∧ start ≤ hl.2 ∧ hl.2 < finish then loopStart else start)
    (earlier.foldl (fun start ts =>
        if ts.2 < start ∧ start < (rank rpo ts.1).getD 0 then ts.2 else start) start)

/-- The rounds until nothing changes; every round but the last lowers the opening. -/
def hoistStart (rpo : List BlockId) (earlier loops : List (BlockId × Nat)) (finish : Nat) :
    Nat → Nat → Nat
  | 0, start => start
  | fuel + 1, start =>
    let next := hoistRound rpo earlier loops finish start
    if next = start then start else hoistStart rpo earlier loops finish fuel next

def scopeStarts (rpo : List BlockId) (loops : List (BlockId × Nat)) : List (BlockId × Nat) :=
  rpo.foldl (fun starts t =>
      match ncdOf f doms rpo t with
      | none => starts
      | some ncd =>
        let start := (rank rpo ncd).getD 0
        starts ++ [(t, hoistStart rpo starts loops ((rank rpo t).getD 0) (start + 1) start)])
    []

/-! ## Emission -/

structure Plan where
  rpo : List BlockId
  loops : List (BlockId × Nat)
  starts : List (BlockId × Nat)
  epilogue : Option BlockId

namespace Plan

def lastRank (p : Plan) (b : BlockId) : Option Nat := (p.loops.find? (·.1 = b)).map Prod.snd

/-- `ncd_targets` of the block with a rank, outermost scope first. -/
def targetsAt (p : Plan) (i : Nat) : List BlockId :=
  ((p.starts.filter (·.2 = i)).map Prod.fst).insertionSort fun a b =>
    (rank p.rpo b).getD 0 ≤ (rank p.rpo a).getD 0

/-- A landing opened at a loop header lies behind the loop. -/
def leavesLoop (p : Plan) (b t : BlockId) : Bool :=
  match p.lastRank b with
  | some last => last < (rank p.rpo t).getD 0
  | none => false

/-- Whether the frame on top is closed before the block with a rank. -/
def shouldClose (p : Plan) (i : Nat) (b : BlockId) (frame : StackFrame) : Bool :=
  match frame.kind with
  | .block =>
    decide (frame.label = b) ||
      match rank p.rpo frame.label with
      | some r => r < i
      | none => false
  | .loop maxRank => maxRank < i

end Plan

/-- The operation that ends a scope. -/
def endOp (frame : StackFrame) : Op :=
  match frame.kind with
  | .loop _ => .loopEnd
  | .block => .blockEnd frame.label

def landing (t : BlockId) : StackFrame := ⟨t, .block⟩

namespace Plan

/-- Dead scopes are closed, innermost first. -/
def closeDead (p : Plan) (i : Nat) (b : BlockId) : List StackFrame → List Op × List StackFrame
  | [] => ([], [])
  | frame :: stack =>
    if p.shouldClose i b frame then
      (endOp frame :: (p.closeDead i b stack).1, (p.closeDead i b stack).2)
    else ([], frame :: stack)

def crosses (p : Plan) (i : Nat) (frame : StackFrame) : Bool :=
  match frame.kind, rank p.rpo frame.label with
  | .block, some r => r ≤ i
  | _, _ => false

end Plan

def computeDepth (stack : List StackFrame) (target : BlockId) : Nat :=
  stack.findIdx (·.label = target)

/-- The source panics on a target without rank; the check of the labels has ruled that
out when it is called. -/
def nextRpo (rpo : List BlockId) (i : Nat) (target : BlockId) : Bool :=
  rank rpo target = some (i + 1)

def emitSwitchOps (discriminant : AmirOperand) (targets : List (Int × BlockId × List AmirOperand))
    (otherwise : BlockId × List AmirOperand) (stack : List StackFrame) : List Op :=
  let allArgsEmpty := targets.all (fun t => t.2.2.isEmpty) && otherwise.2.isEmpty
  let sorted := (targets.map fun t => (t.1, t.2.1)).insertionSort fun a b => a.1 ≤ b.1
  let isConsecutive := sorted.zipIdx.all fun ti => decide (ti.1.1 = (ti.2 : Int))
  if isConsecutive && 2 ≤ sorted.length && allArgsEmpty then
    [.brTable (sorted.map fun t => computeDepth stack t.2) (computeDepth stack otherwise.1)
      discriminant otherwise.1 otherwise.2]
  else
    (targets.map fun t => .brIfEq (computeDepth stack t.2.1) t.2.1 t.2.2 discriminant t.1) ++
      [.br (computeDepth stack otherwise.1) otherwise.1 otherwise.2]

/-- `emit_terminator`, for the block with rank `i`. -/
def emitTerminator (rpo : List BlockId) (epilogue : Option BlockId) (i : Nat)
    (stack : List StackFrame) : AmirTerminator → List Op
  | .return =>
    match epilogue with
    | some e => [.br (computeDepth stack e) e []]
    | none => [.return]
  | .unreachable => [.trap]
  | .goto target args =>
    if nextRpo rpo i target then [.argStore target args]
    else [.br (computeDepth stack target) target args]
  | .branch condition ifTrue trueArgs ifFalse falseArgs =>
    if nextRpo rpo i ifFalse then
      [.brIf (computeDepth stack ifTrue) ifTrue trueArgs condition false,
        .argStore ifFalse falseArgs]
    else if nextRpo rpo i ifTrue then
      [.brIf (computeDepth stack ifFalse) ifFalse falseArgs condition true,
        .argStore ifTrue trueArgs]
    else
      [.brIf (computeDepth stack ifTrue) ifTrue trueArgs condition false,
        .br (computeDepth stack ifFalse) ifFalse falseArgs]
  | .switchInt discriminant targets otherwise =>
    emitSwitchOps discriminant targets otherwise stack
  | .suspend _ resume args => [.br (computeDepth stack resume) resume args]

namespace Plan

variable (p : Plan)

/-- The operations and frames that open scopes at a block: landings behind its loop, the loop, and
the other landings. -/
def openOps (i : Nat) (b : BlockId) : List Op :=
  ((p.targetsAt i).filter (p.leavesLoop b)).map .blockBegin ++
    ((p.lastRank b).map fun _ => Op.loopBegin b).toList ++
    ((p.targetsAt i).filter fun t => !p.leavesLoop b t).map .blockBegin

def openFrames (i : Nat) (b : BlockId) : List StackFrame :=
  ((p.targetsAt i).filter fun t => !p.leavesLoop b t).reverse.map landing ++
    ((p.lastRank b).map fun last => (⟨b, .loop last⟩ : StackFrame)).toList ++
    ((p.targetsAt i).filter (p.leavesLoop b)).reverse.map landing

/-- One turn of the emission loop. -/
def emitBlock (f : AmirFunc) (i : Nat) (b : BlockId) (stack : List StackFrame) :
    Except StackifyError (List Op × List StackFrame) :=
  let closed := p.closeDead i b stack
  if closed.2.any (p.crosses i) then .error .crossingScopes
  else
    let opened := p.openFrames i b ++ closed.2
    if (f.successors b).any fun t => !opened.any (·.label = t) then .error .noActiveLabel
    else
      .ok (closed.1 ++ p.openOps i b ++ .blockContent b ::
        emitTerminator p.rpo p.epilogue i opened (f.block b).terminator, opened)

/-- The emission loop over the remaining blocks, and the ends of the scopes left open. -/
def emitFrom (f : AmirFunc) : Nat → List BlockId → List StackFrame →
    Except StackifyError (List Op)
  | _, [], stack => .ok (stack.map endOp ++ (p.epilogue.map fun _ => Op.return).toList)
  | i, b :: rest, stack =>
    match p.emitBlock f i b stack with
    | .error e => .error e
    | .ok (ops, stack) =>
      match emitFrom f (i + 1) rest stack with
      | .error e => .error e
      | .ok more => .ok (ops ++ more)

/-- The emission, with the scope of the epilogue around everything. -/
def emit (f : AmirFunc) : Except StackifyError (List Op) :=
  match p.epilogue with
  | none => p.emitFrom f 0 p.rpo []
  | some e =>
    match p.emitFrom f 0 p.rpo [landing e] with
    | .error err => .error err
    | .ok ops => .ok (.blockBegin e :: ops)

end Plan

/-- The epilogue is used by functions with several returns. -/
def epilogueTarget (f : AmirFunc) : Option BlockId :=
  if 1 < (f.blocks.filter fun b => b.terminator = .return).length then some f.blocks.length
  else none

def planOf (f : AmirFunc) (doms : Dominators) (rpo : List BlockId) : Plan :=
  let loops := rpo.filterMap fun b => (loopMaxRank f doms rpo b).map fun last => (b, last)
  { rpo, loops, starts := scopeStarts f doms rpo loops, epilogue := epilogueTarget f }

/-- Without a result the loop that moves traps has not ended. -/
def stackify (fuel : Nat) (f : AmirFunc) : Option (Except StackifyError (List Op)) :=
  if reversePostOrderBodyFirst f = [] then some (.ok [])
  else
    match hoistUnreachable f fuel (reversePostOrderBodyFirst f) 0, Dominators.new f with
    | some rpo, some doms => some ((planOf f doms rpo).emit f)
    | _, _ => none

end Arandu.Wasm
