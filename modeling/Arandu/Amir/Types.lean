import Arandu.Library.Table

/-!
# AMIR types

The slice of the type system that the middle IR and its passes inspect: primitive
types, hardware vector shapes, the canonical `ArType` and the interner that turns a
dense `TypeId` back into an `ArType`.

Identifiers (`SymbolId`, `TypeId`, ...) are dense indices in the compiler, so they are
natural numbers here. `FrozenConst` payloads and the pool behind `IndexRange` are never
inspected by the passes; they are kept as opaque indices.
-/

namespace Arandu.Amir

abbrev SymbolId := Nat
abbrev TypeId := Nat
abbrev LiteralId := Nat
abbrev TempId := Nat
abbrev LocalId := Nat
abbrev BlockId := Nat
abbrev InstrId := Nat

/-- Half-open range into a dense pool (`layout::DenseRange`). -/
structure DenseRange where
  start : Nat
  len : Nat
deriving DecidableEq, Repr

namespace DenseRange

def empty : DenseRange := ⟨0, 0⟩

variable (r : DenseRange)

/-- One past the last index of the range (`end_usize`). -/
def endUsize : Nat := r.start + r.len

/-- The indices of the range in order (`iter_ids`). -/
def iterIds : List Nat := List.range' r.start r.len

@[simp] lemma mem_iterIds {r : DenseRange} {i : Nat} :
    i ∈ r.iterIds ↔ r.start ≤ i ∧ i < r.endUsize := by
  simp [iterIds, endUsize, List.mem_range'_1]

@[simp] lemma length_iterIds : r.iterIds.length = r.len := by
  simp [iterIds]

lemma nodup_iterIds : r.iterIds.Nodup := by
  exact List.nodup_range'

end DenseRange

/-! ## Primitive and vector types -/

inductive Primitive where
  | int | uint | isize | usize | float
  | i8 | i16 | i32 | i64 | u8 | u16 | u32 | u64
  | f32 | f64 | bool | byte | char | str | any
deriving DecidableEq, Repr

namespace Primitive

def isNumeric : Primitive → Bool
  | .bool | .char | .str | .any => false
  | _ => true

def isInteger : Primitive → Bool
  | .float | .f32 | .f64 | .bool | .char | .str | .any => false
  | _ => true

def isFloat : Primitive → Bool
  | .float | .f32 | .f64 => true
  | _ => false

def isSigned : Primitive → Bool
  | .int | .isize | .i8 | .i16 | .i32 | .i64 | .float | .f32 | .f64 => true
  | _ => false

end Primitive

inductive VectorType where
  | f32x4 | f64x2 | i32x4 | i16x8 | u8x16 | i64x2
deriving DecidableEq, Repr

namespace VectorType

def lane : VectorType → Primitive
  | .f32x4 => .f32
  | .f64x2 => .f64
  | .i32x4 => .i32
  | .i16x8 => .i16
  | .u8x16 => .u8
  | .i64x2 => .i64

def lanes : VectorType → Nat
  | .f32x4 | .i32x4 => 4
  | .f64x2 | .i64x2 => 2
  | .i16x8 => 8
  | .u8x16 => 16

end VectorType

/-! ## Canonical types -/

/-- Canonical internal type representation. Child types are `TypeId`s. -/
inductive ArType where
  | primitive (p : Primitive)
  | vector (v : VectorType)
  | named (sym : SymbolId) (args : DenseRange)
  | func (params : DenseRange) (ret : TypeId)
  | nullable (inner : TypeId)
  | slice (elem : TypeId)
  | mutSlice (elem : TypeId)
  | array (len : Nat) (elem : TypeId)
  | constArray (len : SymbolId) (elem : TypeId)
  | const (value : Nat)
  | frozenConst (value : Nat)
  | constParam (sym : SymbolId)
  | ptr (inner : TypeId)
  | ref (inner : TypeId)
  | refMut (inner : TypeId)
  | genRef
  | tuple (elems : DenseRange)
  | result (ok err : TypeId)
  | option (inner : TypeId)
  | coroutine (inner : TypeId)
  | poll (inner : TypeId)
  | range (inner : TypeId)
  | err
  | void
  | intLiteral
  | floatLiteral
  | error
deriving DecidableEq, Repr

namespace ArType

def isError : ArType → Bool
  | .error => true
  | _ => false

/-- An untyped literal takes the type its context asks for. -/
def literalAbsorbs : ArType → ArType → Bool
  | .intLiteral, .primitive p => p.isNumeric
  | .floatLiteral, .primitive p => p.isFloat
  | _, _ => false

def isPointer : ArType → Bool
  | .ptr _ | .ref _ | .refMut _ => true
  | _ => false

end ArType

/-- The interner: `types[id]` is the type `id` stands for. -/
structure TypeInterner where
  types : List ArType
deriving DecidableEq, Repr

namespace TypeInterner

/-- `resolve` panics on an id the interner never produced; such an id reads back as the
poison type here, which the validator rejects. -/
def resolve (interner : TypeInterner) (id : TypeId) : ArType :=
  interner.types.getD id .error

/-- The id `intern` returns: the first occurrence, or the next fresh index. -/
def intern (interner : TypeInterner) (ty : ArType) : TypeId :=
  interner.types.idxOf ty

def isError (interner : TypeInterner) (id : TypeId) : Bool :=
  (interner.resolve id).isError

end TypeInterner

end Arandu.Amir
