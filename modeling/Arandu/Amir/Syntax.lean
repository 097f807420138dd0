import Arandu.Amir.Types

/-!
# AMIR syntax

Operands, places, rvalues, statements, terminators and functions of the middle IR.
A function keeps its statements in one dense table and its block parameters in one dense
pool; a basic block only owns a range of each. Source spans are left out: no pass
branches on them.
-/

namespace Arandu.Amir

/-! ## Operands and places -/

inductive AmirConstant where
  | pool (id : LiteralId)
  | bool (b : Bool)
  | nil
deriving DecidableEq, Repr

inductive AmirOperand where
  | copy (t : TempId)
  | move (t : TempId)
  | constant (c : AmirConstant)
  | functionRef (sym : SymbolId)
  | globalRef (sym : SymbolId)
deriving DecidableEq, Repr

namespace AmirOperand

/-- The temp an operand reads, if it reads one. -/
@[simp] def temp? : AmirOperand → Option TempId
  | .copy t | .move t => some t
  | .constant _ | .functionRef _ | .globalRef _ => none

end AmirOperand

inductive AmirProjection where
  | field (sym : SymbolId)
  | variant (tag : Nat)
  | payload (variantTag index : Nat) (fieldTy : TypeId) (tupleTy : Option TypeId)
  | tupleField (index : Nat)
  | index (op : AmirOperand)
  | indexConstant (index : Nat)
  | deref
deriving DecidableEq, Repr

structure AmirPlace where
  localId : LocalId
  projections : List AmirProjection
deriving DecidableEq, Repr

/-! ## Operators -/

inductive UnaryOp where
  | neg | not | bitNot | await | ref | refMut | deref
deriving DecidableEq, Repr

inductive BinaryOp where
  | or | and | equal | notEqual | lt | gt | ltEqual | gtEqual
  | add | sub | mul | div | mod | bitOr | bitXor | bitAnd
  | shiftLeft | shiftRight | nullCoalesce | rangeExclusive | rangeInclusive
deriving DecidableEq, Repr

inductive VectorOp where
  | add | sub | mul | div | bitAnd | bitOr | bitXor
deriving DecidableEq, Repr

namespace VectorOp

/-- The closed operation matrix: which lane types an operation exists for. -/
def supports : VectorOp → VectorType → Bool
  | .add, _ | .sub, _ => true
  | .mul, v => v != .u8x16
  | .div, v => v.lane.isFloat
  | .bitAnd, v | .bitOr, v | .bitXor, v => !v.lane.isFloat

end VectorOp

inductive VectorCompareOp where
  | eq | ne | lt | le | gt | ge
deriving DecidableEq, Repr

/-! ## Rvalues -/

inductive AmirRvalue where
  | use (op : AmirOperand)
  | vectorOp (op : VectorOp) (left right : AmirOperand)
  | vectorSelect (mask ifTrue ifFalse : AmirOperand)
  | vectorCompare (op : VectorCompareOp) (left right : AmirOperand)
  | vectorSplat (value : AmirOperand)
  | vectorShuffle (left right : AmirOperand) (mask : List Nat)
  | vectorExtractLane (vector : AmirOperand) (lane : Nat)
  | vectorInsertLane (vector : AmirOperand) (lane : Nat) (value : AmirOperand)
  | binary (op : BinaryOp) (left right : AmirOperand)
  | unary (op : UnaryOp) (operand : AmirOperand)
  | fieldAccess (base : AmirOperand) (field : Nat)
  | structLiteral (structSymbol : SymbolId) (fields : List (List Char × AmirOperand))
  | indexAccess (base index : AmirOperand) (inBounds : Bool)
  | array (items : List AmirOperand)
  | tuple (items : List AmirOperand)
  | discriminant (value : AmirOperand)
  | enumPayload (value : AmirOperand) (variant : SymbolId) (variantTag index : Nat)
      (fieldTy : TypeId) (tupleTy : Option TypeId)
  | enumConstruct (variantTag : Nat) (payload : Option AmirOperand)
  | len (op : AmirOperand)
  | sliceData (op : AmirOperand)
  | sliceView (owner data len : AmirOperand)
  | sliceSubslice (slice start len : AmirOperand)
  | strBytes (source : AmirOperand)
  | strView (owner : AmirOperand)
  | alloc (op : AmirOperand)
  | load (place : AmirPlace)
  | borrow (place : AmirPlace)
  | borrowMut (place : AmirPlace)
  | relativeBorrow (localId : LocalId) (mutable : Bool)
  | coroutineReady (value : AmirOperand) (payloadTy : TypeId) (stack : Bool)
  | genInsert (value : AmirOperand) (payloadTy : TypeId)
  | genGet (genRef : AmirOperand) (payloadTy : TypeId)
  | genSet (genRef value : AmirOperand) (payloadTy : TypeId)
  | genUpsert (genRef value : AmirOperand) (payloadTy : TypeId)
  | genRemove (genRef : AmirOperand) (payloadTy : TypeId)
  | stringInterp (parts : List AmirOperand)
  | toStr (value : AmirOperand) (srcTy : TypeId)
  | blackBox (value : AmirOperand) (valueTy : TypeId)
deriving DecidableEq, Repr

/-! ## Statements and terminators -/

inductive AmirStmt where
  | assign (lhs : TempId) (rhs : AmirRvalue)
  | store (lhs : AmirPlace) (rhs : AmirOperand)
  | call (lhs : Option TempId) (callee : AmirOperand) (args : List AmirOperand)
  | free (op : AmirOperand)
  | storageLive (l : LocalId)
  | storageDead (l : LocalId)
  | destroy (place : AmirPlace)
  | nop
deriving DecidableEq, Repr

namespace AmirStmt

/-- The temp a statement defines. -/
def def? : AmirStmt → Option TempId
  | .assign lhs _ => some lhs
  | .call lhs _ _ => lhs
  | _ => none

end AmirStmt

/-- Targets of a `SwitchInt` are `(value, block, arguments)` triples. -/
inductive AmirTerminator where
  | return
  | goto (target : BlockId) (args : List AmirOperand)
  | branch (condition : AmirOperand) (ifTrue : BlockId) (trueArgs : List AmirOperand)
      (ifFalse : BlockId) (falseArgs : List AmirOperand)
  | switchInt (discriminant : AmirOperand) (targets : List (Int × BlockId × List AmirOperand))
      (otherwise : BlockId × List AmirOperand)
  | suspend (future : AmirOperand) (resume : BlockId) (args : List AmirOperand)
  | unreachable
deriving DecidableEq, Repr

/-! ## Functions -/

structure BlockParam where
  id : TempId
  localId : LocalId
  ty : TypeId
  moved : Bool
deriving DecidableEq, Repr

structure AmirBasicBlock where
  id : BlockId
  params : DenseRange
  statements : DenseRange
  terminator : AmirTerminator
deriving DecidableEq, Repr

structure AmirLocal where
  id : LocalId
  ty : TypeId
  isMemory : Bool
  symbol : Option SymbolId
deriving DecidableEq, Repr

/-- An SSA temporary; `isCopy` and `isNullable` are denormalised from `ty`. -/
structure AmirTemp where
  id : TempId
  ty : TypeId
  isCopy : Bool
  isNullable : Bool
deriving DecidableEq, Repr

structure ControlFlowGraph where
  successors : List (List BlockId)
  predecessors : List (List BlockId)
deriving DecidableEq, Repr

structure AmirFunc where
  symbol : SymbolId
  returnType : TypeId
  receiver : Option TempId
  params : List TempId
  locals : List AmirLocal
  temps : List AmirTemp
  blocks : List AmirBasicBlock
  blockParams : List BlockParam
  stmts : List AmirStmt
  cfg : ControlFlowGraph
deriving DecidableEq, Repr

namespace AmirBasicBlock

/-- The block an out-of-range id reads as: it owns nothing and cannot be left. -/
def missing : AmirBasicBlock :=
  { id := 0, params := .empty, statements := .empty, terminator := .unreachable }

end AmirBasicBlock

namespace AmirFunc

variable (f : AmirFunc) (b : BlockId)

/-- `func.block(b)`; the source panics on an id outside the table. -/
def block : AmirBasicBlock :=
  f.blocks.getD b .missing

/-- `func.stmt(id)`; the source panics on an id outside the table. -/
def stmt (id : InstrId) : AmirStmt :=
  f.stmts.getD id .nop

def paramsOf (r : DenseRange) : List BlockParam :=
  (f.blockParams.drop r.start).take r.len

def blockStmtIds : List InstrId :=
  (f.block b).statements.iterIds

def blockStmts : List AmirStmt :=
  (f.blockStmtIds b).map f.stmt

def successors (f : AmirFunc) (b : BlockId) : List BlockId :=
  f.cfg.successors.getD b []

def predecessors (f : AmirFunc) (b : BlockId) : List BlockId :=
  f.cfg.predecessors.getD b []

/-- The parameters of block `b`. -/
def blockParamsOf : List BlockParam :=
  f.paramsOf (f.block b).params

variable {f : AmirFunc} {b : BlockId}

lemma block_of_length_le (h : f.blocks.length ≤ b) : f.block b = .missing := by
  simp [block, List.getElem?_eq_none h]

lemma block_eq_getElem (h : b < f.blocks.length) : f.block b = f.blocks[b] := by
  simp [block, List.getElem?_eq_getElem h]

lemma getElem?_blocks (h : b < f.blocks.length) : f.blocks[b]? = some (f.block b) := by
  rw [block_eq_getElem h, List.getElem?_eq_getElem h]

/-! Only blocks of the table have statements and parameters. -/

lemma lt_of_mem_blockStmtIds {k : InstrId} (h : k ∈ f.blockStmtIds b) : b < f.blocks.length := by
  by_contra hge
  rw [blockStmtIds, block_of_length_le (Nat.le_of_not_lt hge)] at h
  cases h

lemma lt_of_mem_blockStmts {s : AmirStmt} (h : s ∈ f.blockStmts b) : b < f.blocks.length := by
  obtain ⟨k, hk, -⟩ := List.mem_map.1 h
  exact lt_of_mem_blockStmtIds hk

lemma lt_of_mem_blockParamsOf {p : BlockParam} (h : p ∈ f.blockParamsOf b) :
    b < f.blocks.length := by
  by_contra hge
  rw [blockParamsOf, block_of_length_le (Nat.le_of_not_lt hge)] at h
  cases h

lemma stmt_eq_getElem {i : InstrId} (h : i < f.stmts.length) : f.stmt i = f.stmts[i] := by
  simp [stmt, List.getElem?_eq_getElem h]

end AmirFunc

end Arandu.Amir
