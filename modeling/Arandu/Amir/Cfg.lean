import Arandu.Amir.Visit
import Arandu.Library.Dfs

/-!
# Control-flow graphs

Edges of a function are the targets of its terminators. A function also stores its edges
as successor and predecessor lists; `computeCfgEdges` builds these lists from the blocks,
and passes that move edges keep them up to date incrementally.
-/

namespace Arandu.Amir

open Arandu.Library List ControlFlowGraph

/-! ## Building the edge lists -/

namespace ControlFlowGraph

/-- `n` blocks without edges. -/
def empty (n : Nat) : ControlFlowGraph :=
  { successors := replicate n [], predecessors := replicate n [] }

/-- Push an edge on both lists. -/
def addEdge (cfg : ControlFlowGraph) (e : BlockId × BlockId) : ControlFlowGraph :=
  { successors := cfg.successors.modify e.1 (· ++ [e.2])
    predecessors := cfg.predecessors.modify e.2 (· ++ [e.1]) }

end ControlFlowGraph

variable (blocks : List AmirBasicBlock)

/-- The edges in the order in which `computeCfgEdges` pushes them. -/
def cfgEdgeList : List (BlockId × BlockId) :=
  blocks.zipIdx.flatMap fun bi =>
    (bi.1.terminator.targets.filter (· < blocks.length)).map fun s => (bi.2, s)

def computeCfgEdges : ControlFlowGraph :=
  (cfgEdgeList blocks).foldl addEdge (.empty blocks.length)

variable (cfg : ControlFlowGraph)

/-- The first edge `from → old` becomes `from → new`. -/
def retargetSuccessor (src old new : BlockId) : Bool × ControlFlowGraph :=
  let succs := cfg.successors.getD src []
  if old ∈ succs then
    (true,
      { successors := cfg.successors.set src (succs.set (succs.idxOf old) new)
        predecessors := (cfg.predecessors.modify old (·.filter (· != src))).modify new
          (· ++ [src]) })
  else (false, cfg)

/-- Drop every edge out of `block`, and its own lists. -/
def clearBlock (block : BlockId) : ControlFlowGraph :=
  let preds := (cfg.successors.getD block []).foldl
    (fun preds s => preds.modify s (·.filter (· != block))) cfg.predecessors
  { successors := cfg.successors.set block []
    predecessors := preds.set block [] }

/-- `into` takes over every edge out of `src`. -/
def transferEdges (into src : BlockId) : ControlFlowGraph :=
  let moved := cfg.successors.getD src []
  let preds := moved.foldl
    (fun preds s => preds.modify s fun ps => ps.filter (· != src) ++ [into]) cfg.predecessors
  { successors := (cfg.successors.set src []).set into moved
    predecessors := preds }

/-! ## What `computeCfgEdges` contains -/

lemma getElem?_foldl_modify (key val : BlockId × BlockId → BlockId)
    (edges : List (BlockId × BlockId)) (table : List (List BlockId)) (i : Nat) :
    (edges.foldl (fun table e => table.modify (key e) (· ++ [val e])) table)[i]? =
      (table[i]?).map (· ++ (edges.filter (key · == i)).map val) := by
  induction edges generalizing table with
  | nil => simp
  | cons e es ih =>
    rw [foldl_cons, ih]
    by_cases hi : key e = i
    · subst hi
      simp [Function.comp_def]
    · simp [hi]

lemma computeCfgEdges_successors (i : BlockId) :
    (computeCfgEdges blocks).successors.getD i [] =
      if i < blocks.length then ((cfgEdgeList blocks).filter (·.1 == i)).map Prod.snd else [] := by
  rw [getD, computeCfgEdges, ← @foldl_hom _ _ _ successors _
    (fun table e => table.modify e.1 (· ++ [e.2])) _ _ fun _ _ => rfl,
    getElem?_foldl_modify Prod.fst Prod.snd]
  simp only [empty, getElem?_replicate]
  split <;> simp

lemma computeCfgEdges_predecessors (i : BlockId) :
    (computeCfgEdges blocks).predecessors.getD i [] =
      if i < blocks.length then ((cfgEdgeList blocks).filter (·.2 == i)).map Prod.fst else [] := by
  rw [getD, computeCfgEdges, ← @foldl_hom _ _ _ predecessors _
    (fun table e => table.modify e.2 (· ++ [e.1])) _ _ fun _ _ => rfl,
    getElem?_foldl_modify Prod.snd Prod.fst]
  simp only [empty, getElem?_replicate]
  split <;> simp

/-! ## Edges of a function -/

namespace AmirFunc

/-- A terminator of block `m` names `n`. -/
def Edge (f : AmirFunc) (m n : BlockId) : Prop := n ∈ (f.block m).terminator.targets

lemma lt_of_edge {f : AmirFunc} {m n : BlockId} (h : f.Edge m n) : m < f.blocks.length := by
  by_contra hm
  rw [Edge, block_of_length_le (not_lt.1 hm)] at h
  cases h

/-- The stored edge lists agree with each other and cover every terminator edge. Passes
such as constant propagation drop terminator edges without touching the lists, so the
lists may name more edges than the terminators do. -/
structure CfgCovers (f : AmirFunc) : Prop where
  covers : ∀ m n, f.Edge m n → n ∈ f.successors m
  mirror : ∀ m n, n ∈ f.successors m ↔ m ∈ f.predecessors n

end AmirFunc

/-! ## Exact edge lists -/

/-- The stored lists hold exactly the edges of the terminators, with their multiplicity:
successors in the order of the terminator, predecessors in any order. -/
structure AmirFunc.CfgExact (f : AmirFunc) : Prop where
  succLength : f.cfg.successors.length = f.blocks.length
  predLength : f.cfg.predecessors.length = f.blocks.length
  succs : ∀ b, f.successors b = (f.block b).terminator.targets
  preds : ∀ m n, (f.predecessors n).count m = (f.block m).terminator.targets.count n

lemma AmirFunc.CfgExact.mem_predecessors {f : AmirFunc} (h : f.CfgExact) {m n : BlockId} :
    m ∈ f.predecessors n ↔ f.Edge m n := by
  rw [← count_pos_iff, h.preds, count_pos_iff]
  rfl

lemma filter_cfgEdgeList (blocks : List AmirBasicBlock) (n k i : Nat) :
    ((blocks.zipIdx k).flatMap fun bi =>
      (bi.1.terminator.targets.filter (· < n)).map fun s => (bi.2, s)).filter (·.1 == i + k) =
    (((blocks.getD i .missing).terminator.targets.filter (· < n)).map fun s => (i + k, s)) := by
  induction blocks generalizing k i with
  | nil => simp [AmirBasicBlock.missing, AmirTerminator.targets]
  | cons b bs ih =>
    rw [zipIdx_cons, flatMap_cons, filter_append]
    cases i with
    | zero =>
      -- later blocks have a larger index
      have hrest : ((bs.zipIdx (k + 1)).flatMap fun bi =>
          (bi.1.terminator.targets.filter (· < n)).map fun s => (bi.2, s)).filter
            (·.1 == 0 + k) = [] := by
        rw [filter_eq_nil_iff]
        intro e he
        obtain ⟨⟨b', j⟩, hmem, hmap⟩ := mem_flatMap.1 he
        obtain ⟨s, -, rfl⟩ := mem_map.1 hmap
        have hj := le_snd_of_mem_zipIdx hmem
        simp only [beq_iff_eq]
        omega
      rw [hrest, filter_map]
      simp
    | succ i =>
      have hhead : ((b.terminator.targets.filter (· < n)).map fun s => (k, s)).filter
          (·.1 == i + 1 + k) = [] := by
        rw [filter_eq_nil_iff]
        intro e he
        obtain ⟨s, -, rfl⟩ := mem_map.1 he
        simp only [beq_iff_eq]
        omega
      have hshift : i + 1 + k = i + (k + 1) := by omega
      rw [hhead, hshift, ih]
      simp

lemma AmirFunc.cfgExact_of_compute {f : AmirFunc} (hcfg : f.cfg = computeCfgEdges f.blocks)
    (htargets : ∀ m n, f.Edge m n → n < f.blocks.length) : f.CfgExact := by
  have hall : ∀ b, (f.block b).terminator.targets.filter (· < f.blocks.length) =
      (f.block b).terminator.targets := by
    intro b
    rw [filter_eq_self]
    exact fun t ht => by simpa using htargets b t ht
  have hedges : ∀ i, (cfgEdgeList f.blocks).filter (·.1 == i) =
      (f.block i).terminator.targets.map fun s => (i, s) := by
    intro i
    have h := filter_cfgEdgeList f.blocks f.blocks.length 0 i
    rw [← hall i]
    exact h
  have hlength : ∀ (edges : List (BlockId × BlockId)) (cfg : ControlFlowGraph),
      (edges.foldl addEdge cfg).successors.length = cfg.successors.length ∧
      (edges.foldl addEdge cfg).predecessors.length =
        cfg.predecessors.length := by
    intro edges
    induction edges with
    | nil => exact fun _ => ⟨rfl, rfl⟩
    | cons e es ih => exact fun cfg => by simpa [addEdge] using ih (cfg.addEdge e)
  refine ⟨?_, ?_, ?_, ?_⟩
  · rw [hcfg, computeCfgEdges, (hlength _ _).1]
    simp [empty]
  · rw [hcfg, computeCfgEdges, (hlength _ _).2]
    simp [empty]
  · intro b
    rw [AmirFunc.successors, hcfg, computeCfgEdges_successors, hedges]
    split
    · simp
    next hb =>
      rw [AmirFunc.block_of_length_le (not_lt.1 hb)]
      rfl
  · intro m n
    -- both sides count the pair `(m, n)` among the pushed edges
    have hpair : ∀ e : BlockId × BlockId, (e.2 == n && e.1 == m) = (e == (m, n)) := by
      rintro ⟨a, b⟩
      rw [Bool.eq_iff_iff]
      simp [and_comm]
    have hcount : (((cfgEdgeList f.blocks).filter (·.2 == n)).map Prod.fst).count m =
        ((f.block m).terminator.targets).count n := by
      calc (((cfgEdgeList f.blocks).filter (·.2 == n)).map Prod.fst).count m
          = ((cfgEdgeList f.blocks).filter (·.2 == n)).countP (fun e => e.1 == m) := by
            rw [count, countP_map]
            rfl
        _ = (cfgEdgeList f.blocks).countP (fun e => e.1 == m && e.2 == n) := by
            rw [countP_filter]
        _ = ((cfgEdgeList f.blocks).filter (·.1 == m)).countP (fun e => e.2 == n) := by
            rw [countP_filter]
            exact countP_congr fun e _ => by rw [Bool.and_comm]
        _ = ((f.block m).terminator.targets).count n := by
            rw [hedges, countP_map]
            rfl
    rw [AmirFunc.predecessors, hcfg, computeCfgEdges_predecessors]
    split
    · exact hcount
    next hn =>
      rw [count_nil, eq_comm, count_eq_zero]
      exact fun hmem => hn (htargets m n hmem)

lemma AmirFunc.CfgExact.covers {f : AmirFunc} (h : f.CfgExact) : f.CfgCovers where
  covers m n hmn := by
    rw [h.succs]
    exact hmn
  mirror m n := by
    rw [h.succs, h.mem_predecessors]
    rfl

lemma AmirFunc.cfgCovers_of_compute {f : AmirFunc} (hcfg : f.cfg = computeCfgEdges f.blocks)
    (htargets : ∀ m n, f.Edge m n → n < f.blocks.length) : f.CfgCovers :=
  (AmirFunc.cfgExact_of_compute hcfg htargets).covers

/-! ## Reachability and reverse post-order -/

variable (f : AmirFunc)

def reachableBlocksDense : List BlockId :=
  if f.blocks.length = 0 then []
  else floodSet f.blocks.length fun b => (f.block b).terminator.targets

def rpoTraverse (reverseSuccessors : Bool) : List BlockId :=
  if f.blocks.length = 0 then []
  else dfsOrder f.blocks.length fun b =>
    if reverseSuccessors then (f.successors b).reverse else f.successors b

def reversePostOrder : List BlockId := rpoTraverse f false

def reversePostOrderBodyFirst : List BlockId := rpoTraverse f true

end Arandu.Amir
