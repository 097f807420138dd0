import Arandu.Mir.Dataflow.DefiniteInit
import Arandu.Mir.Moves.State

/-!
# The move checker

`checkMoves` reports reads and moves of places that are, or may be, moved already. Moves are
found where a `Move` operand of a non-`Copy` temp is consumed: the place that is moved is the
one the temp was loaded from (`tempOrigins`). States are propagated edge by edge, starting at
the blocks without predecessors, and joined where edges meet.
-/

namespace Arandu.Mir

open Arandu.Amir Arandu.Library

/-! ## Origins of temps -/

variable (f : AmirFunc)

def definitionCount (t : TempId) : Nat :=
  (f.stmts.filter fun stmt => stmt.def? == some t).length

abbrev Origins := List (Option AmirPlace)

variable (origins : Origins)

def originFor (t : TempId) : Option AmirPlace := (origins.getD t none)

/-- Parameters come from the locals of the same index, block parameters from their own. -/
def paramOrigins : Origins :=
  let origins := f.params.zipIdx.foldl (fun o p => o.set p.1 (some ⟨p.2, []⟩))
    (List.replicate f.temps.length none)
  f.blocks.foldl (fun o block =>
    (f.paramsOf block.params).foldl (fun o p => o.set p.id (some ⟨p.localId, []⟩)) o) origins

/-- The origin of an rvalue: a loaded place, the payload of a temp with an origin, a copy. -/
def rvalueOrigin : AmirRvalue → Option AmirPlace
  | .load place => some place
  | .enumPayload value _ variantTag index fieldTy tupleTy =>
    (value.temp?.bind (originFor origins)).map fun place =>
      { place with projections := place.projections ++
        [.variant variantTag, .payload variantTag index fieldTy tupleTy] }
  | .use op => op.temp?.bind (originFor origins)
  | _ => none

/-- A temp with one definition and no origin yet gets the one of its rvalue. -/
def originStep : AmirStmt → Origins
  | .assign lhs rhs =>
    if definitionCount f lhs = 1 ∧ (originFor origins lhs).isNone then
      match rvalueOrigin origins rhs with
      | some place => origins.set lhs (some place)
      | none => origins
    else origins
  | _ => origins

/-- One round over all blocks. -/
def originRound : Origins :=
  f.blocks.foldl (fun o block => (f.blockStmts block.id).foldl (originStep f) o) origins

/-- `temp_origins`: rounds until nothing changes. Every round but the last finds an origin for
a temp that had none, so there is one round more than there are temps at most. -/
def tempOriginsLoop : Nat → Origins → Origins
  | 0, origins => origins
  | fuel + 1, origins =>
    let next := originRound f origins
    if next = origins then origins else tempOriginsLoop fuel next

def tempOrigins : Origins :=
  tempOriginsLoop f (f.temps.length + 1) (paramOrigins f)

/-! ## Statements -/

inductive MoveCode where
  /-- O001 -/
  | useAfterMove
  /-- O005 -/
  | doubleFree
  /-- O007 -/
  | inconsistentMove
deriving DecidableEq, Repr

structure MoveDiag where
  code : MoveCode
  localId : LocalId
  /-- the value is read, not consumed, here -/
  atRead : Bool
deriving DecidableEq, Repr

def checkPlaceState (place : AmirPlace) : LocalMoveState → List MoveDiag
  | .available => []
  | .moved => [⟨.useAfterMove, place.localId, true⟩]
  | .maybeMoved => [⟨.inconsistentMove, place.localId, true⟩]

def checkConsumePlace (s : MoveState) (place : AmirPlace) (doubleFree : Bool) : List MoveDiag :=
  match s.placeState place with
  | .available => []
  | .moved => [⟨if doubleFree then .doubleFree else .useAfterMove, place.localId, false⟩]
  | .maybeMoved => [⟨.inconsistentMove, place.localId, false⟩]

abbrev Checked := MoveState × List MoveDiag

section Statements

variable (f : AmirFunc) (origins : Origins)

def checkOperandRead (op : AmirOperand) (c : Checked) : Checked :=
  match op.temp?.bind (originFor origins) with
  | some place => (c.1, c.2 ++ checkPlaceState place (c.1.placeState place))
  | none => c

/-- The place a `Move` operand moves: that of a non-`Copy` temp with an origin. -/
def movedPlace : AmirOperand → Option AmirPlace
  | .move t => if (f.temps[t]?).any AmirTemp.isCopy then none else originFor origins t
  | _ => none

def consumeOperand (doubleFree : Bool) (op : AmirOperand) (c : Checked) : Checked :=
  match op with
  | .move _ =>
    match movedPlace f origins op with
    | some place => (c.1.movePlace place, c.2 ++ checkConsumePlace c.1 place doubleFree)
    | none => c
  | op => checkOperandRead origins op c

def consumeOperands (ops : List AmirOperand) (c : Checked) : Checked :=
  ops.foldl (fun c op => consumeOperand f origins false op c) c

/-- The operands that are looked at without being consumed. -/
def isInspection : AmirRvalue → Bool
  | .len _ | .sliceData _ | .discriminant _ => true
  | _ => false

def consumeRvalue (rhs : AmirRvalue) (c : Checked) : Checked :=
  if isInspection rhs then rhs.operands.foldl (fun c op => checkOperandRead origins op c) c
  else consumeOperands f origins rhs.operands c

def checkRvalueReads (rhs : AmirRvalue) (c : Checked) : Checked :=
  (c.1, c.2 ++ rhs.places.flatMap fun place => checkPlaceState place (c.1.placeState place))

/-- A `Destroy` of a whole local destroys what is left of it. -/
def recursiveRootCleanup (s : MoveState) (place : AmirPlace) : Bool :=
  place.projections.isEmpty && s.rootState place.localId == .available && s.hasMovedDescendant place

/-- `apply_stmt`. -/
def applyMoveStmt (stmt : AmirStmt) (c : Checked) : Checked :=
  match stmt with
  | .assign _ rhs => consumeRvalue f origins rhs (checkRvalueReads rhs c)
  | .store lhs rhs =>
    let c := if lhs.projections.isEmpty then c
      else (c.1, c.2 ++ checkPlaceState lhs (c.1.placeBaseState lhs))
    let c := consumeOperand f origins false rhs c
    (c.1.restorePlace lhs, c.2)
  | .call _ callee args => consumeOperands f origins (callee :: args) c
  | .free op => consumeOperand f origins true op c
  | .destroy place =>
    (c.1.movePlace place,
      if recursiveRootCleanup c.1 place then c.2 else c.2 ++ checkConsumePlace c.1 place true)
  | .storageLive _ | .storageDead _ | .nop => c

def applyMoveStmts (stmts : List AmirStmt) (c : Checked) : Checked :=
  stmts.foldl (fun c stmt => applyMoveStmt f origins stmt c) c

/-! ## Blocks -/

/-- The operand a terminator looks at. -/
def inspectedOperand : AmirTerminator → Option AmirOperand
  | .branch condition _ _ _ _ => some condition
  | .switchInt discriminant _ _ => some discriminant
  | .suspend future _ _ => some future
  | _ => none

def blockEdgeStates (b : BlockId) (input : MoveState) : List (BlockId × MoveState) :=
  let out := (applyMoveStmts f origins (f.blockStmts b) (input, [])).1
  (f.block b).terminator.edges.map fun edge =>
    (edge.1, (consumeOperands f origins edge.2 (out, [])).1)

/-- The state behind a block, its edges joined, with everything reported. -/
def applyBlock (b : BlockId) (input : MoveState) : Checked :=
  let c := applyMoveStmts f origins (f.blockStmts b) (input, [])
  let c := match inspectedOperand (f.block b).terminator with
    | some op => checkOperandRead origins op c
    | none => c
  let edges := (f.block b).terminator.edges.map fun edge =>
    consumeOperands f origins edge.2 (c.1, [])
  if (f.block b).terminator.edges.isEmpty then c
  else (MoveState.joinPredecessors (edges.map Prod.fst) f.locals.length,
    c.2 ++ edges.flatMap Prod.snd)

end Statements

/-! ## The solver -/

structure MoveFacts where
  blockIn : List MoveState
  edgeOut : List (List (BlockId × MoveState))
deriving DecidableEq

variable (f : AmirFunc)

/-- The states on the edges into a block that have been computed so far. -/
def incomingStates (edgeOut : List (List (BlockId × MoveState))) (b : BlockId) : List MoveState :=
  (f.predecessors b).flatMap fun pred =>
    ((edgeOut.getD pred []).filter fun edge => edge.1 == b).map Prod.snd

/-- One round of `compute_move_in`. -/
def visitMoves (origins : Origins) (facts : MoveFacts) (b : BlockId) : MoveFacts × List Nat :=
  let incoming := incomingStates f facts.edgeOut b
  if (f.predecessors b).isEmpty = false ∧ incoming.isEmpty then (facts, [])
  else
    let newIn := MoveState.joinPredecessors incoming f.locals.length
    let newEdges := blockEdgeStates f origins b newIn
    if newIn ≠ facts.blockIn.getD b .new ∨ newEdges ≠ facts.edgeOut.getD b [] then
      (⟨facts.blockIn.set b newIn, facts.edgeOut.set b newEdges⟩,
        (f.block b).terminator.targets.filter (· < f.blocks.length))
    else (facts, [])

def moveLimit : Nat :=
  f.blocks.length * f.locals.length * 2 + dataflowFixpointHeadroom

def moveStart : MoveFacts :=
  ⟨List.replicate f.blocks.length .new, List.replicate f.blocks.length []⟩

/-- The blocks the propagation starts from. -/
def moveSeeds : List BlockId :=
  (f.blocks.map AmirBasicBlock.id).filter fun b => (f.predecessors b).isEmpty

def computeMoveIn : Except Diverged (Option (List MoveState)) :=
  if f.locals.length = 0 ∨ f.blocks.length = 0 then .ok none
  else
    match worklist (visitMoves f (tempOrigins f)) (moveLimit f) (moveSeeds f) (moveStart f) with
    | some facts => .ok (some facts.blockIn)
    | none => .error (.moves (moveLimit f) f.blocks.length)

/-- `check_moves_by_block`, before repeated diagnostics of one block are dropped. -/
def moveDiagnostics (blockIn : List MoveState) : List (BlockId × MoveDiag) :=
  f.blocks.flatMap fun block =>
    (applyBlock f (tempOrigins f) block.id (blockIn.getD block.id .new)).2.map fun d =>
      (block.id, d)

/-- One diagnostic for a block, code and local; the first one is kept. -/
def dedupDiagnostics : List (BlockId × MoveDiag) → List (BlockId × MoveDiag) →
    List (BlockId × MoveDiag)
  | unique, [] => unique
  | unique, d :: ds =>
    if unique.any fun u => u.1 == d.1 && u.2.code == d.2.code && u.2.localId == d.2.localId then
      dedupDiagnostics unique ds
    else dedupDiagnostics (unique ++ [d]) ds

/-- `check_moves_by_block`. -/
def checkMoves : Except Diverged (List (BlockId × MoveDiag)) := do
  match ← computeMoveIn f with
  | none => .ok []
  | some blockIn => .ok (dedupDiagnostics [] (moveDiagnostics f blockIn))

end Arandu.Mir
