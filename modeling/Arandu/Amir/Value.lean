import Arandu.Amir.Visit
import Arandu.Amir.Literal
import Arandu.Library.TwosComplement
import Mathlib.Data.Int.Bitwise

/-!
# Run-time values and the host

Integers are mathematical integers wrapped to the width of the temp that holds them, so
that copies between widths, which lower `as` casts, visibly change a value. Everything
the compiler's passes do not compute with (aggregates, pointers, strings, floats, the
heap, callees) belongs to a `Host`: a theorem that quantifies over the host holds for
every input, memory and call oracle.

## The scalar conversions

* `conform` brings a result into the representation of its temp's type.
* A conversion the language does not have is `Stop.stuck`: no meaning is given to a run
  that performs one, or that reads a temp nothing assigned.
-/

namespace Arandu.Amir

open Arandu.Library Primitive

/-- Why a statement does not complete. -/
inductive Stop where
  | trap
  /-- The program has no meaning here: unassigned temp, missing conversion. -/
  | stuck
deriving DecidableEq, Repr

abbrev Res (α : Type) := Except Stop α

namespace Res

lemma bind_eq_ok {α β : Type} {x : Res α} {k : α → Res β} {r : β} :
    (x >>= k) = .ok r ↔ ∃ a, x = .ok a ∧ k a = .ok r := by
  cases x <;> simp [bind, Except.bind]

lemma bind_eq_error {α β : Type} {x : Res α} {k : α → Res β} {e : Stop} :
    (x >>= k) = .error e ↔ x = .error e ∨ ∃ a, x = .ok a ∧ k a = .error e := by
  cases x <;> simp [bind, Except.bind]

@[simp] lemma ok_bind {α β : Type} (a : α) (k : α → Res β) : ((.ok a : Res α) >>= k) = k a := rfl

end Res

inductive Value (Obj Flt : Type) where
  | int (n : Int)
  /-- A character literal before it is assigned; a `char` temp holds its code point. -/
  | char (code : Nat)
  | bool (b : Bool)
  | nil
  | float (x : Flt)
  | obj (o : Obj)
deriving DecidableEq

/-! ## Scalar kinds -/

/-- How the values of a type are represented. -/
inductive ScalarKind where
  /-- Fixed-width integers and `char`. -/
  | int (shape : IntShape)
  /-- `isize` and `usize`. -/
  | ptrInt (shape : IntShape)
  | bool
  | float
  | other
deriving DecidableEq, Repr

namespace ScalarKind

def intShape? : ScalarKind → Option IntShape
  | .int s | .ptrInt s => some s
  | _ => none

end ScalarKind

/-- `IntegerType::new`, extended to the other types; `int` and `uint` are 32 bits wide. -/
def Primitive.scalarKind (ptrBits : Nat) : Primitive → ScalarKind
  | .int | .i32 => .int ⟨32, true⟩
  | .uint | .u32 | .char => .int ⟨32, false⟩
  | .isize => .ptrInt ⟨ptrBits, true⟩
  | .usize => .ptrInt ⟨ptrBits, false⟩
  | .i8 => .int ⟨8, true⟩
  | .i16 => .int ⟨16, true⟩
  | .i64 => .int ⟨64, true⟩
  | .u8 | .byte => .int ⟨8, false⟩
  | .u16 => .int ⟨16, false⟩
  | .u64 => .int ⟨64, false⟩
  | .float | .f32 | .f64 => .float
  | .bool => .bool
  | .str | .any => .other

def ArType.scalarKind (ptrBits : Nat) : ArType → ScalarKind
  | .primitive p => p.scalarKind ptrBits
  | .intLiteral => .int ⟨32, true⟩
  | .floatLiteral => .float
  | _ => .other

/-! ## The host -/

/-- Operators whose operands value numbering may swap. -/
def BinaryOp.isCommutative : BinaryOp → Bool
  | .add | .mul | .equal | .notEqual | .bitAnd | .bitOr | .bitXor => true
  | _ => false

/-- Everything outside the modelled integer and boolean core. Operations receive the
*values* of their operands and the operation itself with its operands blanked out
(`AmirRvalue.shape`), so a host cannot tell which temp a value came from. -/
structure Host where
  /-- Non-scalar values: aggregates, strings, pointers, functions. -/
  Obj : Type
  Flt : Type
  /-- Memory shared with callees, including the locals whose address is taken. -/
  Heap : Type
  /-- Contents of one private local. -/
  Slot : Type
  ptrBits : Nat
  /-- Whether the remainder of the smallest value by -1 traps like the quotient, or is 0. -/
  minRemTraps : Bool
  floatLit : AmirLiteralEntry → Flt
  charLit : List Char → Nat
  strLit : AmirLiteralEntry → Obj
  symbol : SymbolId → Obj
  /-- Number of elements of a slice, array or string value. -/
  objLen : Obj → Option Nat
  /-- Truncation towards zero; `none` on NaN or out of range. -/
  floatToInt : TypeId → Flt → Option Int
  intToFloat : TypeId → Int → Flt
  roundFloat : TypeId → Flt → Flt
  /-- Wrapping a value into `T?`. -/
  box : TypeId → Value Obj Flt → Value Obj Flt
  /-- Unary and binary operators outside integers and booleans. -/
  unary : UnaryOp → TypeId → Value Obj Flt → Res (Value Obj Flt)
  binary : BinaryOp → TypeId → Value Obj Flt → Value Obj Flt → Res (Value Obj Flt)
  binary_comm : ∀ op ty a b, op.isCommutative = true → binary op ty a b = binary op ty b a
  /-- A field of an aggregate held by value. -/
  field : Nat → Value Obj Flt → Res (Value Obj Flt)
  /-- An element of a slice or array, once the index is known to be in range. -/
  index : Heap → Value Obj Flt → Value Obj Flt → Res (Value Obj Flt)
  /-- Remaining rvalues that only read. -/
  read : AmirRvalue → TypeId → List (Value Obj Flt) → Heap → Res (Value Obj Flt)
  /-- Allocation, generational arenas and the optimisation barrier. -/
  effect : AmirRvalue → TypeId → List (Value Obj Flt) → Heap → Res (Value Obj Flt × Heap)
  /-- `Load`, `Borrow`, `BorrowMut`, `RelativeBorrow`; the slot is given for a private local. -/
  place : AmirRvalue → TypeId → List (Value Obj Flt) → Heap → Option Slot → Res (Value Obj Flt)
  /-- A store inside a private local. -/
  storeSlot : AmirPlace → List (Value Obj Flt) → Slot → Value Obj Flt → Res Slot
  /-- A store to shared memory, or through a pointer. -/
  storeHeap : AmirPlace → List (Value Obj Flt) → Heap → Option Slot → Value Obj Flt → Res Heap
  destroy : AmirPlace → List (Value Obj Flt) → Heap → Option Slot → Res (Heap × Option Slot)
  free : Value Obj Flt → Heap → Res Heap
  /-- `StorageLive` (`true`) and `StorageDead` (`false`). -/
  storageSlot : Bool → LocalId → Slot
  storageHeap : Bool → LocalId → Heap → Heap
  call : Value Obj Flt → List (Value Obj Flt) → Heap → Res (Value Obj Flt × Heap)
  suspend : Value Obj Flt → Heap → Res Heap

abbrev Host.Val (h : Host) := Value h.Obj h.Flt

/-! ## Scalar operations -/

section Scalar

variable {Obj Flt : Type} (shape : Option IntShape)

/-- Shift counts are masked to the 32- or 64-bit slot of the result. -/
def shiftCount (n : Int) : Nat :=
  match shape with
  | some s => (n % (if s.bits ≤ 32 then 32 else 64)).toNat
  | none => (n % 64).toNat

def isMinValue (a : Int) : Bool :=
  match shape with
  | some s => s.signed && a == s.minValue
  | none => false

/-- Integer operators, exactly and before wrapping; `shape` is the result type's.
`none` leaves the operator to the host. -/
def intBinary (minRemTraps : Bool) (shape : Option IntShape) (op : BinaryOp) (a b : Int) :
    Option (Res (Value Obj Flt)) :=
  match op with
  | .add => some (.ok (.int (a + b)))
  | .sub => some (.ok (.int (a - b)))
  | .mul => some (.ok (.int (a * b)))
  | .div =>
    if b = 0 then some (.error .trap)
    else if b = -1 ∧ isMinValue shape a = true then some (.error .trap)
    else some (.ok (.int (a.tdiv b)))
  | .mod =>
    if b = 0 then some (.error .trap)
    else if minRemTraps = true ∧ b = -1 ∧ isMinValue shape a = true then some (.error .trap)
    else some (.ok (.int (a.tmod b)))
  | .bitAnd => some (.ok (.int (Int.land a b)))
  | .bitOr => some (.ok (.int (Int.lor a b)))
  | .bitXor => some (.ok (.int (Int.xor a b)))
  | .shiftLeft => some (.ok (.int (a * 2 ^ shiftCount shape b)))
  | .shiftRight => some (.ok (.int (a / 2 ^ shiftCount shape b)))
  | .equal => some (.ok (.bool (decide (a = b))))
  | .notEqual => some (.ok (.bool (decide (a ≠ b))))
  | .lt => some (.ok (.bool (decide (a < b))))
  | .gt => some (.ok (.bool (decide (a > b))))
  | .ltEqual => some (.ok (.bool (decide (a ≤ b))))
  | .gtEqual => some (.ok (.bool (decide (a ≥ b))))
  | .or | .and | .nullCoalesce | .rangeExclusive | .rangeInclusive => none

/-- Boolean operators. -/
def boolBinary (op : BinaryOp) (a b : Bool) : Option (Res (Value Obj Flt)) :=
  match op with
  | .and => some (.ok (.bool (a && b)))
  | .or => some (.ok (.bool (a || b)))
  | .equal => some (.ok (.bool (a == b)))
  | .notEqual => some (.ok (.bool (a != b)))
  | _ => none

end Scalar

namespace Host

variable (h : Host) {kind : ScalarKind} {ty : TypeId} (shape : Option IntShape)

/-- The modelled core on integers and booleans, the host elsewhere. -/
def evalBinary (op : BinaryOp) (ty : TypeId) :
    h.Val → h.Val → Res h.Val
  | .int a, .int b => (intBinary h.minRemTraps shape op a b).getD (h.binary op ty (.int a) (.int b))
  | .bool a, .bool b => (boolBinary op a b).getD (h.binary op ty (.bool a) (.bool b))
  | a, b => h.binary op ty a b

def evalUnary (op : UnaryOp) (ty : TypeId) : h.Val → Res h.Val
  | .int a =>
    match op with
    | .neg => .ok (.int (-a))
    | .bitNot => .ok (.int (-a - 1))
    | _ => h.unary op ty (.int a)
  | .bool b =>
    match op with
    | .not => .ok (.bool !b)
    | _ => h.unary op ty (.bool b)
  | v => h.unary op ty v

/-- Bring a result into the representation of type `ty` of kind `kind`. -/
def conform (kind : ScalarKind) (ty : TypeId) (v : h.Val) : Res h.Val :=
  match kind, v with
  | .int s, .int n | .ptrInt s, .int n => .ok (.int (s.wrap n))
  | .int s, .bool b => .ok (.int (s.wrap (if b then 1 else 0)))
  | .int s, .char c => .ok (.int (s.wrap c))
  | .int s, .float x | .ptrInt s, .float x =>
    match h.floatToInt ty x with
    | some n => .ok (.int (s.wrap n))
    | none => .error .trap
  | .bool, .bool b => .ok (.bool b)
  | .bool, .int n => .ok (.bool (decide (n ≠ 0)))
  | .float, .int n => .ok (.float (h.intToFloat ty n))
  | .float, .float x => .ok (.float (h.roundFloat ty x))
  | .other, v => .ok v
  | _, _ => .error .stuck

lemma land_comm (a b : Int) : Int.land a b = Int.land b a := by
  cases a <;> cases b <;> simp [Int.land, Nat.land_comm, Nat.lor_comm]

lemma lor_comm (a b : Int) : Int.lor a b = Int.lor b a := by
  cases a <;> cases b <;> simp [Int.lor, Nat.land_comm, Nat.lor_comm]

lemma xor_comm (a b : Int) : Int.xor a b = Int.xor b a := by
  cases a <;> cases b <;> simp [Int.xor, Nat.xor_comm]

lemma evalBinary_comm {op : BinaryOp} (ty : TypeId) (a b : h.Val) (hop : op.isCommutative = true) :
    h.evalBinary shape op ty a b = h.evalBinary shape op ty b a := by
  have hhost := fun x y => h.binary_comm op ty x y hop
  cases a with
  | int a =>
    cases b with
    | int b =>
      cases op <;> first
        | (simp [BinaryOp.isCommutative] at hop; done)
        | simp [evalBinary, intBinary, Int.add_comm, Int.mul_comm, land_comm, lor_comm, xor_comm,
            eq_comm]
    | _ => exact hhost _ _
  | bool a =>
    cases b with
    | bool b =>
      cases op <;> first
        | exact hhost _ _
        | (cases a <;> cases b <;> rfl)
    | _ => exact hhost _ _
  | _ => cases b <;> exact hhost _ _

lemma conform_intShape {s : IntShape} {v w : h.Val}
    (hk : kind.intShape? = some s) (hc : h.conform kind ty v = .ok w) :
    ∃ n, w = .int (s.wrap n) := by
  cases kind with
  | int s' =>
    cases hk
    cases v <;> simp only [conform] at hc <;> try (cases hc)
    · exact ⟨_, rfl⟩
    · exact ⟨_, rfl⟩
    · exact ⟨_, rfl⟩
    · split at hc <;> cases hc
      exact ⟨_, rfl⟩
  | ptrInt s' =>
    cases hk
    cases v <;> simp only [conform] at hc <;> try (cases hc)
    · exact ⟨_, rfl⟩
    · split at hc <;> cases hc
      exact ⟨_, rfl⟩
  | bool => cases hk
  | float => cases hk
  | other => cases hk

lemma conform_bool {b b' : Bool} (hc : h.conform kind ty (.bool b) = .ok (.bool b')) : b' = b := by
  cases kind <;> simp_all [conform]

lemma conform_int {a b : Int}
    (hc : h.conform kind ty (.int a) = .ok (.int b)) : b = a ∨ ∃ s : IntShape, b = s.wrap a := by
  cases kind with
  | int s | ptrInt s => exact .inr ⟨s, by simpa [conform] using hc.symm⟩
  | bool | float => simp [conform] at hc
  | other => exact .inl (by simpa [conform] using hc.symm)

end Host

lemma Primitive.scalarKind_unsigned {p : Primitive} (ptrBits : Nat) (hint : p.isInteger = true)
    (hsigned : p.isSigned = false) :
    ∃ s, (p.scalarKind ptrBits).intShape? = some s ∧ s.signed = false := by
  cases p <;> simp_all [isInteger, isSigned, scalarKind,
    ScalarKind.intShape?]

end Arandu.Amir
