import Arandu.Amir.Syntax

/-!
# Shared AMIR visitors

Every analysis walks operands through these functions: the operands of a place, an
rvalue, a statement and a terminator, the places of an rvalue, and the outgoing edges of
a terminator with the arguments they pass. The `map` functions are the mutable
counterparts of the visitors.
-/

namespace Arandu.Amir

/-! ## Operands -/

namespace AmirProjection

def operands : AmirProjection → List AmirOperand
  | .index op => [op]
  | _ => []

def mapOperands (g : AmirOperand → AmirOperand) : AmirProjection → AmirProjection
  | .index op => .index (g op)
  | p => p

end AmirProjection

namespace AmirPlace

/-- `for_each_place_operand`: the operands nested in index projections. -/
def operands (p : AmirPlace) : List AmirOperand :=
  p.projections.flatMap AmirProjection.operands

def mapOperands (g : AmirOperand → AmirOperand) (p : AmirPlace) : AmirPlace :=
  { p with projections := p.projections.map (AmirProjection.mapOperands g) }

/-- Some projection goes through a pointer. -/
def hasDeref (p : AmirPlace) : Bool := p.projections.any (· == .deref)

end AmirPlace

namespace AmirRvalue

/-- `for_each_rvalue_operand`: every operand used by an rvalue, in visiting order. -/
def operands : AmirRvalue → List AmirOperand
  | .vectorSplat op | .vectorExtractLane op _ | .use op | .unary _ op | .len op
  | .sliceData op | .strBytes op | .strView op | .alloc op | .discriminant op
  | .enumPayload op _ _ _ _ _ | .fieldAccess op _ | .toStr op _ | .blackBox op _
  | .coroutineReady op _ _ | .genInsert op _ | .genGet op _ | .genRemove op _ => [op]
  | .genSet g v _ | .genUpsert g v _ => [g, v]
  | .vectorOp _ l r | .vectorCompare _ l r | .vectorShuffle l r _ | .vectorInsertLane l _ r
  | .binary _ l r | .indexAccess l r _ => [l, r]
  | .vectorSelect m t e => [m, t, e]
  | .sliceView o d l => [o, d, l]
  | .sliceSubslice s b l => [s, b, l]
  | .enumConstruct _ payload => payload.toList
  | .structLiteral _ fields => fields.map Prod.snd
  | .array items | .tuple items | .stringInterp items => items
  | .load p | .borrow p | .borrowMut p => p.operands
  | .relativeBorrow _ _ => []

/-- `for_each_rvalue_operand_mut`. -/
def mapOperands (g : AmirOperand → AmirOperand) : AmirRvalue → AmirRvalue
  | .use op => .use (g op)
  | .vectorOp o l r => .vectorOp o (g l) (g r)
  | .vectorSelect m t e => .vectorSelect (g m) (g t) (g e)
  | .vectorCompare o l r => .vectorCompare o (g l) (g r)
  | .vectorSplat v => .vectorSplat (g v)
  | .vectorShuffle l r m => .vectorShuffle (g l) (g r) m
  | .vectorExtractLane v n => .vectorExtractLane (g v) n
  | .vectorInsertLane v n x => .vectorInsertLane (g v) n (g x)
  | .binary o l r => .binary o (g l) (g r)
  | .unary o x => .unary o (g x)
  | .fieldAccess b i => .fieldAccess (g b) i
  | .structLiteral s fields => .structLiteral s (fields.map fun p => (p.1, g p.2))
  | .indexAccess b i k => .indexAccess (g b) (g i) k
  | .array items => .array (items.map g)
  | .tuple items => .tuple (items.map g)
  | .discriminant v => .discriminant (g v)
  | .enumPayload v s t i f u => .enumPayload (g v) s t i f u
  | .enumConstruct t p => .enumConstruct t (p.map g)
  | .len op => .len (g op)
  | .sliceData op => .sliceData (g op)
  | .sliceView o d l => .sliceView (g o) (g d) (g l)
  | .sliceSubslice s b l => .sliceSubslice (g s) (g b) (g l)
  | .strBytes s => .strBytes (g s)
  | .strView o => .strView (g o)
  | .alloc op => .alloc (g op)
  | .load p => .load (p.mapOperands g)
  | .borrow p => .borrow (p.mapOperands g)
  | .borrowMut p => .borrowMut (p.mapOperands g)
  | .relativeBorrow l m => .relativeBorrow l m
  | .coroutineReady v t s => .coroutineReady (g v) t s
  | .genInsert v t => .genInsert (g v) t
  | .genGet r t => .genGet (g r) t
  | .genSet r v t => .genSet (g r) (g v) t
  | .genUpsert r v t => .genUpsert (g r) (g v) t
  | .genRemove r t => .genRemove (g r) t
  | .stringInterp ps => .stringInterp (ps.map g)
  | .toStr v t => .toStr (g v) t
  | .blackBox v t => .blackBox (g v) t

/-- `for_each_rvalue_place`. -/
def places : AmirRvalue → List AmirPlace
  | .load p | .borrow p | .borrowMut p => [p]
  | _ => []

/-- An rvalue with its operands blanked out: what is left is the operation itself. -/
def shape (rv : AmirRvalue) : AmirRvalue :=
  rv.mapOperands fun _ => .constant .nil

end AmirRvalue

namespace AmirStmt

/-- `for_each_stmt_operand`. -/
def operands : AmirStmt → List AmirOperand
  | .assign _ rhs => rhs.operands
  | .store lhs rhs => lhs.operands ++ [rhs]
  | .call _ callee args => callee :: args
  | .free op => [op]
  | .destroy place => place.operands
  | .storageLive _ | .storageDead _ | .nop => []

end AmirStmt

/-! ## Terminators -/

namespace AmirTerminator

/-- `for_each_terminator_operand`: conditions and all jump arguments. -/
def operands : AmirTerminator → List AmirOperand
  | .return | .unreachable => []
  | .goto _ args => args
  | .branch c _ ta _ fa => c :: (ta ++ fa)
  | .switchInt d targets otherwise =>
      d :: (targets.flatMap (fun t => t.2.2) ++ otherwise.2)
  | .suspend future _ args => future :: args

/-- `for_each_terminator_edge`: the outgoing edges with the arguments they pass. -/
def edges : AmirTerminator → List (BlockId × List AmirOperand)
  | .return | .unreachable => []
  | .goto t args => [(t, args)]
  | .branch _ t ta e fa => [(t, ta), (e, fa)]
  | .switchInt _ targets otherwise => targets.map Prod.snd ++ [otherwise]
  | .suspend _ r args => [(r, args)]

/-- `terminator_targets`. -/
def targets : AmirTerminator → List BlockId
  | .return | .unreachable => []
  | .goto t _ => [t]
  | .branch _ t _ e _ => [t, e]
  | .switchInt _ ts otherwise => ts.map (fun t => t.2.1) ++ [otherwise.1]
  | .suspend _ r _ => [r]

lemma targets_eq_edges (term : AmirTerminator) : term.targets = term.edges.map Prod.fst := by
  cases term <;> simp [targets, edges]

open List

variable {args : List AmirOperand} {term : AmirTerminator} {t : BlockId}

lemma mem_targets_of_mem_edges (h : (t, args) ∈ term.edges) : t ∈ term.targets := by
  rw [targets_eq_edges]
  exact mem_map_of_mem h

lemma mem_operands_of_mem_edges (h : (t, args) ∈ term.edges) {op : AmirOperand}
    (hop : op ∈ args) : op ∈ term.operands := by
  cases term with
  | «return» | unreachable => simp [edges] at h
  | goto t' args' =>
    simp only [edges, mem_singleton, Prod.mk.injEq] at h
    simpa [operands, ← h.2] using hop
  | branch c t' ta e fa =>
    simp only [edges, mem_cons, not_mem_nil, or_false] at h
    rcases h with ⟨-, rfl⟩ | ⟨-, rfl⟩ <;> simp [operands, hop]
  | switchInt d ts o =>
    simp only [edges, mem_append, mem_map, mem_singleton] at h
    rcases h with ⟨⟨v, b, as⟩, hmem, heq⟩ | heq
    · cases heq
      have : op ∈ ts.flatMap (fun t => t.2.2) := mem_flatMap.2 ⟨_, hmem, hop⟩
      simp [operands, this]
    · subst heq
      simp [operands, hop]
  | suspend fu r args' =>
    simp only [edges, mem_singleton, Prod.mk.injEq] at h
    simp [operands, ← h.2, hop]

/-- The terminator with every edge changed. -/
def mapEdges (edge : BlockId × List AmirOperand → BlockId × List AmirOperand) :
    AmirTerminator → AmirTerminator
  | .goto t args => .goto (edge (t, args)).1 (edge (t, args)).2
  | .branch c t ta e fa =>
    .branch c (edge (t, ta)).1 (edge (t, ta)).2 (edge (e, fa)).1 (edge (e, fa)).2
  | .switchInt d targets otherwise =>
    .switchInt d (targets.map fun t => (t.1, edge t.2)) (edge otherwise)
  | .suspend future r args => .suspend future (edge (r, args)).1 (edge (r, args)).2
  | term => term

@[simp] lemma mapEdges_id (term : AmirTerminator) : term.mapEdges id = term := by
  cases term <;> simp [mapEdges]

end AmirTerminator

/-- The temps an operand list reads. -/
def operandTemps (ops : List AmirOperand) : List TempId :=
  ops.filterMap AmirOperand.temp?

lemma mem_operandTemps {ops : List AmirOperand} {t : TempId} :
    t ∈ operandTemps ops ↔ ∃ op ∈ ops, op.temp? = some t := by
  simp [operandTemps]

lemma lt_of_mem_operandTemps {f : AmirFunc} {b : BlockId} {t : TempId}
    (h : t ∈ operandTemps (f.block b).terminator.operands) : b < f.blocks.length := by
  by_contra hge
  rw [AmirFunc.block_of_length_le (Nat.le_of_not_lt hge)] at h
  cases h

end Arandu.Amir
