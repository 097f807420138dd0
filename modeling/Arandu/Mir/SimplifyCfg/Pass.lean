import Arandu.Amir.Cfg
import Arandu.Library.MarkQueue
import Arandu.Mir.AnalysisLimits
import Arandu.Mir.StmtTable

/-!
# CFG simplification

Jump threading, block merging and the removal of unreachable blocks, as a worklist inside
an outer loop. Merging is logical while the worklist runs: a block takes over the
terminator and the edges of the block it absorbs, `absorbed` remembers whose statements
follow its own, and one compaction rebuilds the statement table afterwards. Threading and
merging update the stored edge lists incrementally; only the removal of unreachable
blocks, which renumbers the blocks, computes them anew.
-/

namespace Arandu.Mir

open Arandu.Amir Arandu.Library List

namespace SimplifyCfg

/-- `absorbed[b]` lists the blocks whose statements follow those of `b`. -/
abbrev Absorbed := List (List BlockId)

inductive Phase where
  | blockMerge | unreachableSweep
deriving DecidableEq, Repr

/-- The only failure: a statement id that was taken before or lies outside the table. -/
inductive CfgError where
  | statement (phase : Phase) (index : InstrId)
deriving DecidableEq, Repr

variable (f : AmirFunc)

def setTerminator (b : BlockId) (term : AmirTerminator) : AmirFunc :=
  { f with blocks := f.blocks.modify b fun block => { block with terminator := term } }

/-! ## Jump threading -/

variable (absorbed : Absorbed)

/-- Follow empty blocks that end in a plain goto, one block per block of the function. -/
def followChain (original : BlockId) :
    Nat → BlockId → BlockId
  -- a block was revisited: keep the original edge into the cycle
  | 0, _ => original
  | fuel + 1, b =>
    if (f.block b).statements.len ≠ 0 ∨ absorbed.getD b [] ≠ [] ∨ f.blockParamsOf b ≠ [] then b
    else
      match (f.block b).terminator with
      | .goto target [] => followChain original fuel target
      | _ => b

def resolveGotoChain (block : BlockId) : BlockId :=
  followChain f absorbed block f.blocks.length block

/-- Bypass a chain of empty goto-only blocks. -/
def threadBlock (bid : BlockId) (absorbed : Absorbed) : Bool × AmirFunc :=
  match (f.block bid).terminator with
  | .goto target [] =>
    let finalTarget := resolveGotoChain f absorbed target
    if finalTarget = target then (false, f)
    else
      (true, { setTerminator f bid (.goto finalTarget []) with
        cfg := (retargetSuccessor f.cfg bid target finalTarget).2 })
  | _ => (false, f)

/-! ## Block merging -/

/-- Append `src` to `into` logically. -/
def mergeTwoBlocks (into src : BlockId) (absorbed : Absorbed) : AmirFunc × Absorbed :=
  let moved := absorbed.getD src []
  let term := (f.block src).terminator
  ({ setTerminator (setTerminator f src .unreachable) into term with
      cfg := clearBlock (transferEdges f.cfg into src) src },
    (absorbed.set src []).modify into (· ++ src :: moved))

/-- Merge `bid` with its only successor, if that has no other predecessor and no
parameters, and if `bid` falls through to it. -/
def mergeBlockCandidate (bid : BlockId) (absorbed : Absorbed) : Option (AmirFunc × Absorbed) :=
  match (f.block bid).terminator, f.successors bid with
  | .goto _ [], [succ] =>
    if succ ≥ f.blocks.length ∨ succ = bid then none
    else if f.predecessors succ ≠ [bid] then none
    else if f.blockParamsOf succ ≠ [] then none
    else some (mergeTwoBlocks f bid succ absorbed)
  | _, _ => none

/-! ## The worklist -/

structure LocalState where
  func : AmirFunc
  absorbed : Absorbed
  changed : Bool
deriving DecidableEq, Repr

def visitBlock (s : LocalState) (bid : BlockId) : Bool × LocalState :=
  let (threaded, f) := threadBlock s.func bid s.absorbed
  match mergeBlockCandidate f bid s.absorbed with
  | some (f', absorbed') => (true, ⟨f', absorbed', s.changed⟩)
  | none => (threaded, ⟨f, s.absorbed, s.changed⟩)

/-- Visit blocks until the worklist is empty or the visits are used up. A change puts the
neighbours of the block on the list again. -/
def localLoop : Nat → List BlockId → LocalState → LocalState
  | 0, _, s => s
  | _ + 1, [], s => s
  | visits + 1, bid :: worklist, s =>
    if bid ≥ s.func.blocks.length then localLoop visits worklist s
    else
      let (blockChanged, s') := visitBlock s bid
      if blockChanged then
        localLoop visits (worklist ++ s'.func.predecessors bid ++ s'.func.successors bid)
          { s' with changed := true }
      else localLoop visits worklist s'

/-! ## Compaction -/

/-- The block was absorbed by another one. -/
def mergedAway (b : BlockId) : Bool := absorbed.any (·.contains b)

def compactParts : List (List InstrId) :=
  (range f.blocks.length).map fun b =>
    if mergedAway absorbed b then []
    else (b :: absorbed.getD b []).flatMap f.blockStmtIds

def compactMergedStatements : Except CfgError AmirFunc :=
  match rebuildStmts f (compactParts f absorbed) with
  | .ok f' => .ok f'
  | .error index => .error (.statement .blockMerge index)

/-! ## Unreachable blocks -/

def reachableBlocks : MarkQueue :=
  MarkQueue.propagate f.successors f.blocks.length ((MarkQueue.empty f.blocks.length).markAll [0])

/-- Reachable blocks are numbered in their old order. -/
def oldToNew (reachable : BlockId → Bool) (old : BlockId) : Option BlockId :=
  if reachable old then some ((range old).countP reachable) else none

variable (map : BlockId → Option BlockId)

def remapTerminator (term : AmirTerminator) : AmirTerminator :=
  let remap := fun b => (map b).getD b
  match term with
  | .return => .return
  | .goto target args => .goto (remap target) args
  | .branch c t ta e fa => .branch c (remap t) ta (remap e) fa
  | .switchInt d targets otherwise =>
    .switchInt d (targets.map fun t => (t.1, remap t.2.1, t.2.2)) (remap otherwise.1, otherwise.2)
  | .suspend future resume args => .suspend future (remap resume) args
  | .unreachable => .unreachable

/-- The kept blocks under their new numbers, and the parameter pool they own. -/
def keepBlocks :
    List BlockId → List BlockParam → List AmirBasicBlock × List BlockParam
  | [], pool => ([], pool)
  | old :: rest, pool =>
    let params := f.blockParamsOf old
    let (blocks, pool') := keepBlocks rest (pool ++ params)
    ({ id := (map old).getD old
       params := ⟨pool.length, params.length⟩
       statements := (f.block old).statements
       terminator := remapTerminator map (f.block old).terminator } :: blocks, pool')

def removeUnreachableBlocks : Except CfgError (Bool × AmirFunc) :=
  let reachable := (reachableBlocks f).marked
  if f.blocks.length = 0 then .ok (false, f)
  else if (reachableBlocks f).live.count true = f.blocks.length then .ok (false, f)
  else
    let kept := (range f.blocks.length).filter reachable
    let (blocks, pool) := keepBlocks f (oldToNew reachable) kept []
    match rebuildStmts { f with blocks := blocks, blockParams := pool }
        (kept.map f.blockStmtIds) with
    | .ok f' => .ok (true, { f' with cfg := computeCfgEdges f'.blocks })
    | .error index => .error (.statement .unreachableSweep index)

/-! ## The pass -/

/-- Thread and merge, compact, remove what became unreachable, until nothing changes. -/
def outerLoop : Nat → AmirFunc → Bool → Except CfgError (Bool × AmirFunc)
  | 0, f, changed => .ok (changed, f)
  | iters + 1, f, changed => do
    let n := f.blocks.length
    let s := localLoop (max (n * 4) 16) (range n) ⟨f, replicate n [], false⟩
    let f₁ ← if s.absorbed.any (!·.isEmpty) then compactMergedStatements s.func s.absorbed
      else .ok s.func
    let (removed, f₂) ← removeUnreachableBlocks f₁
    if s.changed || removed then outerLoop iters f₂ true else .ok (changed, f₂)

def simplifyCfg : Except CfgError (Bool × AmirFunc) :=
  outerLoop cfgSimplifyMaxOuterIters { f with cfg := computeCfgEdges f.blocks } false

end SimplifyCfg

end Arandu.Mir
