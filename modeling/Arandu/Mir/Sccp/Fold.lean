import Arandu.Amir.Semantics

/-!
# Constant folding for constant propagation

`evalRvalue` evaluates an rvalue over lattice values. Constants are folded as `i128`
numbers without regard to the type of the result; `normalizeConstant` then converts the
folded constant to the type of the temp it is assigned to, and `evaluationSafe` keeps
divisions and shifts that could trap or wrap differently out of the folder.

`foldBinary_sound`, `foldUnary_sound` and `normalizeConstant_sound` compare this with the
run-time operators: the folder computes exactly, the machine wraps, and both agree once
the result is brought into its temp.
-/

namespace Arandu.Mir.Sccp

open Arandu.Amir Arandu.Library Option IntShape ArType

variable {s : IntShape} {n lv rv : Int} {op : BinaryOp}

/-- What is known about a temp: nothing assigned yet, one constant, or anything. -/
inductive LatticeVal where
  | undefined
  | constant (c : AmirConstant)
  | overdefined
deriving DecidableEq, Repr

/-! ## Integer constants -/

def constAsI128 (c : AmirConstant) (pool : AmirLiteralPool) : Option Int :=
  match c with
  | .pool id =>
    match pool.get? id with
    | some (.int lexeme) => parseIntLiteral lexeme
    | _ => none
  | .bool _ | .nil => none

/-- Intern the decimal rendering of a number. -/
def intConst (val : Int) (pool : AmirLiteralPool) : AmirConstant × AmirLiteralPool :=
  let (id, pool) := pool.intern (.int (i128ToString val))
  (.pool id, pool)

/-- A checked operation that overflowed folds to nothing and interns nothing. -/
def checkedInt (val : Option Int) (pool : AmirLiteralPool) :
    Option (AmirConstant × AmirLiteralPool) :=
  val.map fun v => intConst v pool

/-! ## Operators -/

def foldUnary (op : UnaryOp) (value : AmirConstant) (pool : AmirLiteralPool) :
    Option (AmirConstant × AmirLiteralPool) :=
  match op, value with
  | .not, .bool b => some (.bool !b, pool)
  | .neg, v => (constAsI128 v pool).bind fun val => checkedInt (checkedI128 (-val)) pool
  | .bitNot, v => (constAsI128 v pool).map fun val => intConst (-val - 1) pool
  | _, _ => none

/-- `i128::checked_shl`: only the count is checked, bits shifted out are lost. -/
def shlI128 (lv : Int) (rv : Nat) : Int := wrap ⟨128, true⟩ (lv * 2 ^ rv)

/-- The integer arm of `foldBinary`. -/
def foldIntBinary (op : BinaryOp) (lv rv : Int) (pool : AmirLiteralPool) :
    Option (AmirConstant × AmirLiteralPool) :=
  match op with
  | .add => checkedInt (checkedI128 (lv + rv)) pool
  | .sub => checkedInt (checkedI128 (lv - rv)) pool
  | .mul => checkedInt (checkedI128 (lv * rv)) pool
  | .div => if rv ≠ 0 then checkedInt (checkedI128 (lv.tdiv rv)) pool else none
  | .mod =>
    -- `checked_rem` also refuses the one quotient that overflows
    if rv ≠ 0 then checkedInt ((checkedI128 (lv.tdiv rv)).map fun _ => lv.tmod rv) pool else none
  | .bitOr => some (intConst (Int.lor lv rv) pool)
  | .bitXor => some (intConst (Int.xor lv rv) pool)
  | .bitAnd => some (intConst (Int.land lv rv) pool)
  | .shiftLeft =>
    if 0 ≤ rv ∧ rv < 128 then checkedInt (some (shlI128 lv rv.toNat)) pool else none
  | .shiftRight =>
    if 0 ≤ lv ∧ 0 ≤ rv ∧ rv < 128 then checkedInt (some (lv / 2 ^ rv.toNat)) pool else none
  | .equal => some (.bool (lv == rv), pool)
  | .notEqual => some (.bool (lv != rv), pool)
  | .lt => some (.bool (decide (lv < rv)), pool)
  | .gt => some (.bool (decide (lv > rv)), pool)
  | .ltEqual => some (.bool (decide (lv ≤ rv)), pool)
  | .gtEqual => some (.bool (decide (lv ≥ rv)), pool)
  | _ => none

def foldBinary (op : BinaryOp) (left right : AmirConstant) (pool : AmirLiteralPool) :
    Option (AmirConstant × AmirLiteralPool) :=
  match left, right with
  | .bool a, .bool b =>
    match op with
    | .and => some (.bool (a && b), pool)
    | .or => some (.bool (a || b), pool)
    | .equal => some (.bool (a == b), pool)
    | .notEqual => some (.bool (a != b), pool)
    | _ => none
  | l, r =>
    match constAsI128 l pool, constAsI128 r pool with
    | some lv, some rv => foldIntBinary op lv rv pool
    | _, _ => none

/-! ## Types of results -/

/-- Width and signedness of the types whose width is known without a
target; pointer-sized integers are excluded. -/
def integerShape (ty : TypeId) (interner : TypeInterner) : Option IntShape :=
  let primitive? : Option Primitive :=
    match interner.resolve ty with
    | .intLiteral => some .int
    | .primitive p => some p
    | _ => none
  match primitive? with
  | some .char => some ⟨32, false⟩
  | some .int | some .i32 => some ⟨32, true⟩
  | some .uint | some .u32 => some ⟨32, false⟩
  | some .i8 => some ⟨8, true⟩
  | some .i16 => some ⟨16, true⟩
  | some .i64 => some ⟨64, true⟩
  | some .u8 | some .byte => some ⟨8, false⟩
  | some .u16 => some ⟨16, false⟩
  | some .u64 => some ⟨64, false⟩
  | _ => none

def isBoolTy (ty : TypeId) (interner : TypeInterner) : Bool :=
  interner.resolve ty == .primitive .bool

/-- Constants whose meaning does not depend on an arithmetic width. -/
def widthFree (value : AmirConstant) (pool : AmirLiteralPool) : Bool :=
  match value with
  | .pool id =>
    match pool.get? id with
    | some (.str _) | some (.char _) | some (.bytes _) => true
    | _ => false
  | .bool _ | .nil => true

/-- Convert a constant to the type of the temp it is assigned to. -/
def normalizeConstant (value : AmirConstant) (ty : TypeId) (interner : Option TypeInterner)
    (pool : AmirLiteralPool) : Option (AmirConstant × AmirLiteralPool) :=
  let unconverted := if widthFree value pool then some (value, pool) else none
  match interner with
  | none => unconverted
  | some interner =>
    if isBoolTy ty interner then
      match value with
      | .bool _ => some (value, pool)
      | _ => (constAsI128 value pool).map fun number => (.bool (number != 0), pool)
    else
      match integerShape ty interner with
      | none => unconverted
      | some shape =>
        match value with
        | .bool b => some (intConst (shape.wrap (if b then 1 else 0)) pool)
        | _ =>
          (constAsI128 value pool).map fun number =>
            -- a literal already in range keeps its spelling
            if shape.wrap number = number then (value, pool)
            else intConst (shape.wrap number) pool

/-! ## Rvalues -/

def operandLattice (op : AmirOperand) (lattice : List LatticeVal) : LatticeVal :=
  match op with
  | .constant c => .constant c
  | .copy t | .move t => lattice.getD t .undefined
  | .functionRef _ | .globalRef _ => .overdefined

/-- A folded constant, or nothing known. -/
def ofFold (pool : AmirLiteralPool) :
    Option (AmirConstant × AmirLiteralPool) → LatticeVal × AmirLiteralPool
  | some (c, pool) => (.constant c, pool)
  | none => (.overdefined, pool)

def evalRvalue (rvalue : AmirRvalue) (lattice : List LatticeVal) (pool : AmirLiteralPool) :
    LatticeVal × AmirLiteralPool :=
  match rvalue with
  | .use op => (operandLattice op lattice, pool)
  | .unary op operand =>
    match operandLattice operand lattice with
    | .constant c => ofFold pool (foldUnary op c pool)
    | .overdefined => (.overdefined, pool)
    | .undefined => (.undefined, pool)
  | .binary op left right =>
    match operandLattice left lattice, operandLattice right lattice with
    | .constant lc, .constant rc => ofFold pool (foldBinary op lc rc pool)
    | .overdefined, _ | _, .overdefined => (.overdefined, pool)
    | _, _ => (.undefined, pool)
  | _ => (.overdefined, pool)

/-- Division and shifts are only evaluated at a known width, and not where the machine
traps or masks the count. -/
def evaluationSafe (rhs : AmirRvalue) (ty : TypeId) (interner : Option TypeInterner)
    (lattice : List LatticeVal) (pool : AmirLiteralPool) : Bool :=
  match rhs with
  | .binary op left right =>
    if op = .div ∨ op = .mod ∨ op = .shiftLeft ∨ op = .shiftRight then
      match interner.bind (integerShape ty) with
      | none => false
      | some shape =>
        match operandLattice left lattice, operandLattice right lattice with
        | .constant left, .constant right =>
          match constAsI128 left pool, constAsI128 right pool with
          | some left, some right =>
            if op = .div ∨ op = .mod then
              right != 0 && !(shape.signed && left == -(2 ^ (shape.bits - 1)) && right == -1)
            else decide (0 ≤ right) && decide (right < shape.bits)
          | _, _ => true
        | _, _ => true
    else true
  | _ => true

/-! ## Interning only adds literals -/

lemma extends_intConst (val : Int) (pool : AmirLiteralPool) : pool.Extends (intConst val pool).2 :=
  AmirLiteralPool.extends_intern pool _

lemma extends_checkedInt {val : Option Int} {pool pool' : AmirLiteralPool}
    {c : AmirConstant} (h : checkedInt val pool = some (c, pool')) : pool.Extends pool' := by
  obtain ⟨v, -, hv⟩ := map_eq_some_iff.1 h
  have hpool : pool' = (intConst v pool).2 := by rw [hv]
  rw [hpool]
  exact extends_intConst v pool

lemma extends_foldUnary {op : UnaryOp} {value c : AmirConstant} {pool pool' : AmirLiteralPool}
    (h : foldUnary op value pool = some (c, pool')) : pool.Extends pool' := by
  unfold foldUnary at h
  split at h
  · cases h
    exact .refl _
  · obtain ⟨val, -, hval⟩ := bind_eq_some_iff.1 h
    exact extends_checkedInt hval
  · obtain ⟨val, -, hval⟩ := map_eq_some_iff.1 h
    have hpool : pool' = (intConst (-val - 1) pool).2 := by rw [hval]
    rw [hpool]
    exact extends_intConst _ pool
  · cases h

lemma extends_foldIntBinary {c : AmirConstant}
    {pool pool' : AmirLiteralPool} (h : foldIntBinary op lv rv pool = some (c, pool')) :
    pool.Extends pool' := by
  have hconst : ∀ n, some (intConst n pool) = some (c, pool') → pool.Extends pool' := by
    intro n hn
    exact @extends_checkedInt (some n) _ _ _ hn
  have hbool : ∀ b, some (AmirConstant.bool b, pool) = some (c, pool') → pool.Extends pool' := by
    intro b hb
    cases hb
    exact .refl _
  cases op <;> simp only [foldIntBinary] at h
  all_goals first
    | exact extends_checkedInt h
    | exact hconst _ h
    | exact hbool _ h
    | (split at h <;> first | exact extends_checkedInt h | cases h)
    | cases h

lemma extends_foldBinary {l r c : AmirConstant} {pool pool' : AmirLiteralPool}
    (h : foldBinary op l r pool = some (c, pool')) : pool.Extends pool' := by
  unfold foldBinary at h
  split at h
  · split at h <;> cases h <;> exact .refl _
  · split at h
    · exact extends_foldIntBinary h
    · cases h

lemma extends_normalizeConstant {value c : AmirConstant} {ty : TypeId}
    {interner : Option TypeInterner} {pool pool' : AmirLiteralPool}
    (h : normalizeConstant value ty interner pool = some (c, pool')) : pool.Extends pool' := by
  have hfree : (if widthFree value pool then some (value, pool) else none) = some (c, pool') →
      pool.Extends pool' := by
    intro hw
    split at hw <;> cases hw
    exact .refl _
  unfold normalizeConstant at h
  dsimp only at h
  split at h
  · exact hfree h
  split at h
  · split at h
    · cases h
      exact .refl _
    · obtain ⟨n, -, hn⟩ := map_eq_some_iff.1 h
      cases hn
      exact .refl _
  · split at h
    · exact hfree h
    · split at h
      · exact @extends_checkedInt (some _) _ _ _ h
      · obtain ⟨n, -, hn⟩ := map_eq_some_iff.1 h
        split at hn
        · cases hn
          exact .refl _
        · exact @extends_checkedInt (some _) _ _ _ (congrArg some hn)

/-! ## Values of folded constants -/

section Sound

variable {E : Env}
variable {pool pool' : AmirLiteralPool} {ty : TypeId} {c c' : AmirConstant} {op : BinaryOp}
  {w a : E.host.Val} {m : Nat}

lemma constValue_of_constAsI128 (h : constAsI128 c pool = some n) (hpool : pool.Extends E.pool) :
    constValue E c = .ok (.int n) := by
  cases c with
  | pool id =>
    simp only [constAsI128] at h
    split at h
    next lexeme hget => simp only [constValue, hpool.get? hget, h]
    · cases h
  | bool b => cases h
  | nil => cases h

lemma inI128_of_constAsI128 (h : constAsI128 c pool = some n) : InI128 n := by
  cases c with
  | pool id =>
    simp only [constAsI128] at h
    split at h
    · exact inI128_of_parseIntLiteral h
    · cases h
  | bool b => cases h
  | nil => cases h

/-- The value of an interned number is the number, except for `i128::MIN`, whose rendering
does not parse. -/
lemma constValue_intConst (hn : InI128 n) (hpool : (intConst n pool).2.Extends E.pool) :
    constValue E (intConst n pool).1 = if n = i128Min then .error .stuck else .ok (.int n) := by
  have hget := hpool.get? (AmirLiteralPool.get?_intern pool (.int (i128ToString n)))
  simp only [intConst, constValue, hget]
  by_cases hmin : n = i128Min
  · subst hmin
    simp [parseIntLiteral_i128Min]
  · simp [parseIntLiteral_i128ToString hn hmin, hmin]

lemma eq_of_intConst (hn : InI128 n) (h : intConst n pool = (c, pool'))
    (hpool : pool'.Extends E.pool) (hw : constValue E c = .ok w) : w = .int n := by
  have hvalue := constValue_intConst (E := E) hn (by rw [h]; exact hpool)
  rw [h] at hvalue
  rw [hvalue] at hw
  split at hw <;> cases hw
  rfl

/-! ### Range of the operators -/

lemma inI128_natCast : InI128 (m : Int) ↔ m < 2 ^ 127 := by
  unfold InI128 i128Min i128Max
  omega

lemma inI128_negSucc : InI128 (Int.negSucc m) ↔ m < 2 ^ 127 := by
  unfold InI128 i128Min i128Max
  omega

lemma inI128_land {a b : Int} (ha : InI128 a) (hb : InI128 b) : InI128 (Int.land a b) := by
  cases a <;> cases b <;>
    simp only [Int.ofNat_eq_natCast, inI128_natCast, inI128_negSucc, Int.land] at *
  · exact Nat.and_lt_two_pow _ hb
  · exact Nat.bitwise_lt_two_pow ha hb
  · exact Nat.bitwise_lt_two_pow hb ha
  · exact Nat.or_lt_two_pow ha hb

lemma inI128_lor {a b : Int} (ha : InI128 a) (hb : InI128 b) : InI128 (Int.lor a b) := by
  cases a <;> cases b <;>
    simp only [Int.ofNat_eq_natCast, inI128_natCast, inI128_negSucc, Int.lor] at *
  · exact Nat.or_lt_two_pow ha hb
  · exact Nat.bitwise_lt_two_pow hb ha
  · exact Nat.bitwise_lt_two_pow ha hb
  · exact Nat.and_lt_two_pow _ hb

lemma inI128_xor {a b : Int} (ha : InI128 a) (hb : InI128 b) : InI128 (Int.xor a b) := by
  cases a <;> cases b <;>
    simp only [Int.ofNat_eq_natCast, inI128_natCast, inI128_negSucc, Int.xor] at *
  all_goals exact Nat.xor_lt_two_pow ha hb

lemma inI128_shl (lv : Int) (k : Nat) : InI128 (shlI128 lv k) := by
  unfold shlI128 wrap modulus InI128 i128Min i128Max
  simp only [true_and]
  split <;> omega

lemma inI128_ediv (hlv : InI128 lv) (h0 : 0 ≤ lv) (k : Nat) : InI128 (lv / 2 ^ k) := by
  have hle : lv / 2 ^ k ≤ lv := Int.ediv_le_self _ h0
  have hnonneg : 0 ≤ lv / 2 ^ k := Int.ediv_nonneg h0 (by positivity)
  exact ⟨le_trans i128Min_le_zero hnonneg, le_trans hle hlv.2⟩

lemma inI128_tmod (hlv : InI128 lv) : InI128 (lv.tmod rv) := by
  have habs : (lv.tmod rv).natAbs ≤ lv.natAbs := by
    rw [Int.natAbs_tmod]
    exact Nat.mod_le _ _
  rcases Int.le_total 0 lv with h0 | h0
  · have hpos := Int.tmod_nonneg rv h0
    exact ⟨le_trans i128Min_le_zero hpos, by have := hlv.2; omega⟩
  have hneg : lv.tmod rv ≤ 0 := by
    have := Int.tmod_nonneg rv (Int.neg_nonneg.2 h0)
    rw [Int.neg_tmod] at this
    omega
  have hmax : (0 : Int) ≤ i128Max := by decide
  exact ⟨by have := hlv.1; omega, le_trans hneg hmax⟩

/-! ### Kinds of types -/

attribute [local simp] scalarKind Primitive.scalarKind

lemma kind_of_integerShape (h : integerShape ty E.interner = some s) :
    E.kind ty = .int s ∧ s.bits ≤ 64 := by
  unfold integerShape at h
  unfold Env.kind
  cases hty : E.interner.resolve ty with
  | primitive p => cases p <;> simp_all <;> simp [← h]
  | intLiteral =>
    simp_all
    simp [← h]
  | _ => simp [hty] at h

/-- A type the folder knows no width for is neither `bool` nor a fixed-width integer. -/
lemma kind_of_no_integerShape (h : integerShape ty E.interner = none)
    (hbool : isBoolTy ty E.interner = false) :
    (∃ s, E.kind ty = .ptrInt s) ∨ E.kind ty = .float ∨ E.kind ty = .other := by
  unfold integerShape at h
  unfold isBoolTy at hbool
  unfold Env.kind
  cases hty : E.interner.resolve ty with
  | primitive p => cases p <;> simp_all
  | intLiteral => simp [hty] at h
  | _ => simp

lemma kind_of_isBoolTy (h : isBoolTy ty E.interner = true) : E.kind ty = .bool := by
  have hty : E.interner.resolve ty = .primitive .bool := by simpa [isBoolTy] using h
  simp [Env.kind, hty]

lemma constValue_widthFree (h : widthFree c pool = true) (hpool : pool.Extends E.pool) :
    ∃ w, constValue E c = .ok w ∧ (∀ n, w ≠ .int n) ∧ ∀ x, w ≠ .float x := by
  cases c with
  | pool id =>
    simp only [widthFree] at h
    split at h
    next s hget =>
      exact ⟨.obj (E.host.strLit (.str s)), by simp only [constValue, hpool.get? hget],
        by simp, by simp⟩
    next s hget =>
      exact ⟨.char (E.host.charLit s), by simp only [constValue, hpool.get? hget], by simp, by simp⟩
    next s hget =>
      exact ⟨.obj (E.host.strLit (.bytes s)), by simp only [constValue, hpool.get? hget],
        by simp, by simp⟩
    · cases h
  | bool b => exact ⟨.bool b, rfl, by simp, by simp⟩
  | nil => exact ⟨.nil, rfl, by simp, by simp⟩

attribute [local simp] Host.conform

/-- Where the folder knows no width, only types that keep every value accept such a constant. -/
lemma conform_widthFree {v : E.host.Val}
    (hkind : (∃ s, E.kind ty = .ptrInt s) ∨ E.kind ty = .float ∨ E.kind ty = .other)
    (hint : ∀ n, w ≠ .int n) (hfloat : ∀ x, w ≠ .float x) (hv : E.conform ty w = .ok v) :
    v = w := by
  unfold Env.conform at hv
  rcases hkind with ⟨s, hkind⟩ | hkind | hkind <;> rw [hkind] at hv
  · cases w <;> simp_all
  · cases w <;> simp_all
  · simpa using hv.symm

/-! ### Conversion -/

lemma inI128_wrap (hbits : s.bits ≤ 64) (n : Int) : InI128 (s.wrap n) ∧ s.wrap n ≠ i128Min := by
  have hmod : s.modulus ≤ 2 ^ 64 := pow_le_pow_right₀ (by norm_num) hbits
  obtain ⟨hlow, hhigh⟩ := s.wrap_bounds n
  unfold InI128 i128Min i128Max
  constructor
  · constructor <;> omega
  · omega

attribute [local simp] Env.conform

lemma conform_of_fits (hkind : E.kind ty ≠ .float) (hfits : Fits E ty w) :
    E.conform ty w = .ok w := by
  obtain ⟨x, hx⟩ := hfits
  cases hk : E.kind ty with
  | int s | ptrInt s =>
    obtain ⟨n, rfl⟩ := E.host.conform_intShape (by rw [hk]; rfl) hx
    simp [hk]
  | bool =>
    unfold Env.conform at hx ⊢
    rw [hk] at hx ⊢
    cases x <;> simp at hx <;> subst hx <;> rfl
  | float => exact absurd hk hkind
  | other => simp [hk]

lemma float_of_fits (hkind : E.kind ty = .float) (hfits : Fits E ty w) : ∃ x, w = .float x := by
  obtain ⟨x, hx⟩ := hfits
  unfold Env.conform at hx
  rw [hkind] at hx
  cases x <;> simp at hx <;> exact ⟨_, hx.symm⟩

section

variable (h : normalizeConstant c ty (some E.interner) pool = some (c', pool'))
  (hpool : pool'.Extends E.pool)
include h hpool

lemma normalizeConstant_sound : ∃ w, constValue E c = .ok w ∧ (∀ x, w ≠ .float x) ∧
      ∀ v, E.conform ty w = .ok v → constValue E c' = .ok v := by
  have hbefore : pool.Extends E.pool := (extends_normalizeConstant h).trans hpool
  unfold normalizeConstant at h
  dsimp only at h
  split at h
  · -- bool
    next hbool =>
    have hkind := kind_of_isBoolTy hbool
    split at h
    next b =>
      cases h
      refine ⟨.bool b, rfl, by simp, fun v hv => ?_⟩
      simpa [hkind, constValue] using hv
    · obtain ⟨n, hn, hres⟩ := map_eq_some_iff.1 h
      cases hres
      refine ⟨.int n, constValue_of_constAsI128 hn hbefore, by simp, fun v hv => ?_⟩
      have hv : Value.bool (decide (n ≠ 0)) = v := by
        simpa [hkind] using hv
      rw [← hv]
      by_cases hzero : n = 0 <;> simp [constValue, hzero]
  next hbool =>
    split at h
    · -- no width known
      next hshape =>
      split at h
      next hfree =>
        cases h
        obtain ⟨w, hw, hint, hfloat⟩ := constValue_widthFree hfree hbefore
        refine ⟨w, hw, hfloat, fun v hv => ?_⟩
        rw [hw, conform_widthFree (kind_of_no_integerShape hshape (by simpa using hbool)) hint
          hfloat hv]
      · cases h
    · -- fixed-width integers
      next s hshape =>
      obtain ⟨hkind, hbits⟩ := kind_of_integerShape hshape
      have hsmall := inI128_wrap hbits
      split at h
      next b =>
        have hp : pool' = (intConst (s.wrap (if b then 1 else 0)) pool).2 := by
          cases h
          rfl
        have hc : c' = (intConst (s.wrap (if b then 1 else 0)) pool).1 := by
          cases h
          rfl
        refine ⟨.bool b, rfl, by simp, fun v hv => ?_⟩
        rw [hc, constValue_intConst (hsmall _).1 (hp ▸ hpool), if_neg (hsmall _).2]
        simpa [hkind] using hv
      · obtain ⟨n, hn, hres⟩ := map_eq_some_iff.1 h
        refine ⟨.int n, constValue_of_constAsI128 hn hbefore, by simp, fun v hv => ?_⟩
        have hv : Value.int (s.wrap n) = v := by
          simpa [hkind] using hv
        rw [← hv]
        split at hres
        next hwrap =>
          cases hres
          rw [hwrap, constValue_of_constAsI128 hn hbefore]
        · have hp : pool' = (intConst (s.wrap n) pool).2 := by rw [hres]
          have hc : c' = (intConst (s.wrap n) pool).1 := by rw [hres]
          rw [hc, constValue_intConst (hsmall n).1 (hp ▸ hpool), if_neg (hsmall n).2]

lemma normalizeConstant_fits {u : E.host.Val} (hu : constValue E c = .ok u)
    (hfits : Fits E ty u) : constValue E c' = .ok u := by
  obtain ⟨w, hw, hfloat, hconform⟩ := normalizeConstant_sound h hpool
  cases hw.symm.trans hu
  by_cases hkind : E.kind ty = .float
  · obtain ⟨y, rfl⟩ := float_of_fits hkind hfits
    exact absurd rfl (hfloat y)
  · exact hconform _ (conform_of_fits hkind hfits)

lemma conform_normalized (hw : constValue E c' = .ok w) (hfits : Fits E ty w) :
    E.conform ty w = .ok w := by
  by_cases hkind : E.kind ty = .float
  · obtain ⟨y, rfl⟩ := float_of_fits hkind hfits
    obtain ⟨v, hv, hfloat, -⟩ := normalizeConstant_sound h hpool
    -- no width is known here: the constant is returned as it is, and it is not a float
    unfold normalizeConstant at h
    dsimp only at h
    split at h
    next hbool => simp [kind_of_isBoolTy hbool] at hkind
    · split at h
      · split at h
        · cases h
          cases hv.symm.trans hw
          exact absurd rfl (hfloat y)
        · cases h
      next hshape => simp [(kind_of_integerShape hshape).1] at hkind
  · exact conform_of_fits hkind hfits

end

/-! ### Operators -/

lemma foldBinary_ne_nil {l r : AmirConstant} : foldBinary op l r pool ≠ some (.nil, pool') := by
  have hchecked : ∀ v, checkedInt v pool ≠ some (.nil, pool') := by
    intro v
    cases v <;> simp [checkedInt, intConst]
  unfold foldBinary
  split
  · split <;> simp
  split
  · cases op <;> simp only [foldIntBinary]
    all_goals first
      | exact hchecked _
      | (split <;> first | exact hchecked _ | simp)
      | simp [intConst]
  · simp

/-- The machine neither traps nor masks. -/
def SafeAt (kind : ScalarKind) (op : BinaryOp) (lv rv : Int) : Prop :=
  match op with
  | .div | .mod => rv ≠ 0 ∧ ¬ (rv = -1 ∧ isMinValue kind.intShape? lv = true)
  | .shiftLeft | .shiftRight => ∃ s, kind = .int s ∧ s.bits ≤ 64 ∧ 0 ≤ rv ∧ rv < s.bits
  | _ => True

lemma safeAt_of_evaluationSafe {l r : AmirOperand} {lattice : List LatticeVal}
    {lc rc : AmirConstant}
    (h : evaluationSafe (.binary op l r) ty (some E.interner) lattice pool = true)
    (hl : operandLattice l lattice = .constant lc) (hr : operandLattice r lattice = .constant rc)
    (hlv : constAsI128 lc pool = some lv) (hrv : constAsI128 rc pool = some rv) :
    SafeAt (E.kind ty) op lv rv := by
  simp only [evaluationSafe, hl, hr, hlv, hrv, bind_some] at h
  cases hshape : integerShape ty E.interner with
  | none => cases op <;> simp_all [SafeAt]
  | some s =>
    obtain ⟨hkind, hbits⟩ := kind_of_integerShape hshape
    rw [hshape] at h
    cases op <;> simp [SafeAt, hkind, ScalarKind.intShape?, isMinValue] at h ⊢
    · exact ⟨h.1, fun hrv hs hlv => by simp_all [minValue]⟩
    · exact ⟨h.1, fun hrv hs hlv => by simp_all [minValue]⟩
    · exact ⟨hbits, h⟩
    · exact ⟨hbits, h⟩

lemma shiftCount_eq {kind : ScalarKind} (hkind : kind = .int s) (hbits : s.bits ≤ 64)
    (h0 : 0 ≤ rv) (hlt : rv < s.bits) : shiftCount kind.intShape? rv = rv.toNat := by
  subst hkind
  simp only [shiftCount, ScalarKind.intShape?]
  congr 1
  apply Int.emod_eq_of_lt h0
  split <;> omega

/-- Bits lost above 128 are lost at every narrower width. -/
lemma wrap_shlI128 (hbits : s.bits ≤ 64) (lv : Int) (k : Nat) :
    s.wrap (lv * 2 ^ k) = s.wrap (shlI128 lv k) := by
  have h128 := wrap_modEq ⟨128, true⟩ (lv * 2 ^ k)
  have hdvd : s.modulus ∣ modulus ⟨128, true⟩ := pow_dvd_pow 2 (by show s.bits ≤ 128; omega)
  exact s.wrap_congr (h128.of_dvd hdvd).symm

attribute [local simp] Host.evalBinary intBinary

/-- Folding an integer operator and executing it give values that a temp of type `ty`
cannot tell apart. -/
lemma foldIntBinary_sound (h : foldIntBinary op lv rv pool = some (c, pool'))
    (hpool : pool'.Extends E.pool) (hlv : InI128 lv) (hrv : InI128 rv)
    (hsafe : SafeAt (E.kind ty) op lv rv) (hw : constValue E c = .ok w) :
    ∃ u, E.host.evalBinary (E.kind ty).intShape? op ty (.int lv) (.int rv) = .ok u ∧
      E.conform ty u = E.conform ty w := by
  -- an interned number denotes itself
  have hconst : ∀ n, InI128 n → some (intConst n pool) = some (c, pool') → w = .int n :=
    fun n hn heq => eq_of_intConst hn (some.inj heq) hpool hw
  have hchecked : ∀ n, checkedInt (checkedI128 n) pool = some (c, pool') → w = .int n := by
    intro n heq
    obtain ⟨m, hm, hc⟩ := map_eq_some_iff.1 heq
    obtain ⟨rfl, hin⟩ := inI128_of_checkedI128 hm
    exact hconst m hin (congrArg some hc)
  have hbool : ∀ b, some (AmirConstant.bool b, pool) = some (c, pool') → w = .bool b := by
    intro b heq
    cases heq
    exact (Except.ok.inj hw).symm
  have hsame : ∀ x : E.host.Val, w = x →
      E.host.evalBinary (E.kind ty).intShape? op ty (.int lv) (.int rv) = .ok x →
      ∃ u, E.host.evalBinary (E.kind ty).intShape? op ty (.int lv) (.int rv) = .ok u ∧
        E.conform ty u = E.conform ty w := by
    intro x hx hu
    exact ⟨x, hu, by rw [hx]⟩
  cases op <;> simp only [foldIntBinary] at h
  case add | sub | mul => exact hsame _ (hchecked _ h) rfl
  case bitOr => exact hsame _ (hconst _ (inI128_lor hlv hrv) h) rfl
  case bitXor => exact hsame _ (hconst _ (inI128_xor hlv hrv) h) rfl
  case bitAnd => exact hsame _ (hconst _ (inI128_land hlv hrv) h) rfl
  case equal | lt | gt | ltEqual | gtEqual => exact hsame _ (hbool _ h) rfl
  case notEqual => exact hsame _ (hbool _ h) (by
    by_cases heq : lv = rv <;> simp [heq])
  case div =>
    obtain ⟨hzero, hmin⟩ := hsafe
    rw [if_pos hzero] at h
    exact hsame _ (hchecked _ h) (by simp [hzero, hmin])
  case mod =>
    obtain ⟨hzero, hmin⟩ := hsafe
    rw [if_pos hzero] at h
    obtain ⟨m, hm, hc⟩ := map_eq_some_iff.1 h
    obtain ⟨-, -, rfl⟩ := map_eq_some_iff.1 hm
    exact hsame _ (hconst _ (inI128_tmod hlv) (congrArg some hc))
      (by simp [hzero, hmin])
  case shiftRight =>
    obtain ⟨s, hkind, hbits, h0, hlt⟩ := hsafe
    have hcount := shiftCount_eq hkind hbits h0 hlt
    split at h
    next hcond =>
      exact hsame _ (hconst _ (inI128_ediv hlv hcond.1 _) h)
        (by simp [hcount])
    · cases h
  case shiftLeft =>
    obtain ⟨s, hkind, hbits, h0, hlt⟩ := hsafe
    have hcount := shiftCount_eq hkind hbits h0 hlt
    split at h
    · have hwv := hconst _ (inI128_shl lv rv.toNat) h
      refine ⟨.int (lv * 2 ^ rv.toNat), by simp [hcount], ?_⟩
      rw [hwv]
      simp only [Env.conform, hkind, Host.conform, wrap_shlI128 hbits]
    · cases h
  all_goals cases h

lemma foldBinary_sound {l r : AmirConstant} (h : foldBinary op l r pool = some (c, pool'))
    (hpool : pool'.Extends E.pool)
    (hsafe : ∀ lv rv, constAsI128 l pool = some lv → constAsI128 r pool = some rv →
      SafeAt (E.kind ty) op lv rv)
    {b : E.host.Val} (ha : constValue E l = .ok a) (hb : constValue E r = .ok b)
    (hw : constValue E c = .ok w) : ∃ u, E.host.evalBinary (E.kind ty).intShape? op ty a b = .ok u ∧
      E.conform ty u = E.conform ty w := by
  have hbefore := (extends_foldBinary h).trans hpool
  unfold foldBinary at h
  split at h
  · -- two booleans
    next x y =>
    cases ha
    cases hb
    split at h <;> cases h <;> cases hw <;> exact ⟨_, rfl, rfl⟩
  · -- two integers
    split at h
    next lv rv hlv hrv =>
      cases (constValue_of_constAsI128 hlv hbefore).symm.trans ha
      cases (constValue_of_constAsI128 hrv hbefore).symm.trans hb
      exact foldIntBinary_sound h hpool (inI128_of_constAsI128 hlv) (inI128_of_constAsI128 hrv)
        (hsafe lv rv hlv hrv) hw
    · cases h

lemma foldUnary_sound {op : UnaryOp} {x : AmirConstant}
    (h : foldUnary op x pool = some (c, pool')) (hpool : pool'.Extends E.pool)
    (ha : constValue E x = .ok a) (hw : constValue E c = .ok w) :
    (op = .not ∨ op = .neg ∨ op = .bitNot) ∧ E.host.evalUnary op ty a = .ok w := by
  have hbefore := (extends_foldUnary h).trans hpool
  unfold foldUnary at h
  split at h
  · cases ha
    cases h
    cases hw
    exact ⟨.inl rfl, rfl⟩
  · obtain ⟨n, hn, hval⟩ := bind_eq_some_iff.1 h
    obtain ⟨m, hm, hc⟩ := map_eq_some_iff.1 hval
    obtain ⟨rfl, hin⟩ := inI128_of_checkedI128 hm
    cases (constValue_of_constAsI128 hn hbefore).symm.trans ha
    rw [eq_of_intConst hin hc hpool hw]
    exact ⟨.inr (.inl rfl), rfl⟩
  · obtain ⟨n, hn, hval⟩ := map_eq_some_iff.1 h
    cases (constValue_of_constAsI128 hn hbefore).symm.trans ha
    have hin : InI128 (-n - 1) := by
      have := inI128_of_constAsI128 hn
      have hmax := i128Max_eq
      unfold InI128 at *
      omega
    rw [eq_of_intConst hin hval hpool hw]
    exact ⟨.inr (.inr rfl), rfl⟩
  · cases h

end Sound

end Arandu.Mir.Sccp
