import Arandu.Amir.Literal

/-!
# Patterns and the values they match

Patterns are those of the HIR, without spans. A field of a struct pattern without a
pattern of its own binds the field and is written as `bind` here; a pattern for a struct
variant of an enum is, as `lower_pattern` leaves it, an `enum` pattern with one entry for
every field of the variant.

`Pattern.accepts` is the meaning of a pattern: which values it accepts. Names of variants
are resolved as the lowering resolves them, against the table the type checker collects
from the declarations (`TypeInfo`).
-/

namespace Arandu.Match

open Arandu.Amir

/-! ## Literals and values -/

/-- An integer lexeme starts with a digit; a sign is an operator of its own. -/
structure IntLexeme where
  chars : List Char
  digit : chars.head?.any fun c => decide (IsDecimal c)
deriving DecidableEq, Repr

def IntLexeme.value (lexeme : IntLexeme) : Option Int := parseIntLiteral lexeme.chars

/-- The expressions a literal pattern or a range bound can be. -/
inductive Lit where
  | int (lexeme : IntLexeme)
  | negInt (lexeme : IntLexeme)
  | bool (b : Bool)
  | char (code : Nat)
  | str (text : List Char)
  | float (lexeme : List Char)
deriving DecidableEq, Repr

/-- Values as patterns see them; a reference is seen as what it refers to. `missing` is
what a read yields that finds nothing: no comparison with it succeeds. -/
inductive Value where
  | missing
  | int (n : Int)
  | bool (b : Bool)
  | char (code : Nat)
  | str (text : List Char)
  | float (bits : Nat)
  | variant (tag : Nat) (payload : List Value)
  | fields (items : List Value)
deriving Repr

namespace Lit

/-- The place of an integer or character literal in the order of its type. -/
def key : Lit → Option Int
  | .int lexeme => lexeme.value
  | .negInt lexeme => lexeme.value.map (- ·)
  | .char code => some code
  | _ => none

/-- `literal_to_i128`: plain decimal integers only. -/
def toI128 : Lit → Option Int
  | .int lexeme => fromStrRadix 10 lexeme.chars
  | _ => none

end Lit

lemma IntLexeme.value_of_toI128 {lexeme : IntLexeme} {k : Int}
    (h : fromStrRadix 10 lexeme.chars = some k) : lexeme.value = some k := by
  have hdigit := lexeme.digit
  have hdec : (∀ c ∈ lexeme.chars, IsDecimal c) ∧ lexeme.chars ≠ [] := by
    cases hs : lexeme.chars with
    | nil => simp [hs] at hdigit
    | cons c cs =>
      refine ⟨?_, by simp⟩
      have hc : IsDecimal c := by simpa [hs] using hdigit
      rw [hs] at h
      -- the first character is no sign, so the whole lexeme is read as digits
      have hminus : c ≠ '-' := hc.ne_of_lt (by decide)
      have hplus : c ≠ '+' := hc.ne_of_lt (by decide)
      have hread : ∃ n, digitsValue 10 0 (c :: cs) = some n := by
        unfold fromStrRadix at h
        split at h
        next heq => exact absurd (List.cons.inj heq).1 hminus
        next heq => exact absurd (List.cons.inj heq).1 hplus
        · obtain ⟨n, hn, -⟩ := Option.bind_eq_some_iff.1 h
          exact ⟨n, hn⟩
      obtain ⟨n, hn⟩ := hread
      exact isDecimal_of_digitsValue hn
  rw [IntLexeme.value, parseIntLiteral_decimal hdec.1 hdec.2, h]

namespace Value

def key : Value → Option Int
  | .int n => some n
  | .char code => some code
  | _ => none

def discriminant : Value → Option Nat
  | .variant tag _ => some tag
  | _ => none

/-- The payload of a variant with the given tag; other variants have nothing there. -/
def payload (tag : Nat) : Value → List Value
  | .variant t items => if t = tag then items else []
  | _ => []

/-- `EnumPayload`. -/
def payloadItem (tag index : Nat) (v : Value) : Value := (v.payload tag).getD index .missing

def items : Value → List Value
  | .fields items => items
  | _ => []

/-- `FieldAccess`. -/
def fieldItem (index : Nat) (v : Value) : Value := v.items.getD index .missing

end Value

/-! ## What the type checker knows -/

/-- An entry of `enum_variants` with its tag. Every variant is registered under two
symbols, one for its declaration and one for its qualified uses. -/
structure VariantInfo where
  symbol : SymbolId
  owner : SymbolId
  path : List String
  tag : Nat
  /-- `none` for a unit variant. -/
  payload : Option (List TypeId)
deriving DecidableEq, Repr

/-- The tables pattern lowering reads. -/
structure TypeInfo where
  interner : TypeInterner
  typeArgs : DenseRange → List TypeId
  enumVariants : List VariantInfo
  /-- `instantiate_enum_payload_types`: the payload types under the enum's arguments. -/
  instantiate : SymbolId → List TypeId → List TypeId → List TypeId
  structFields : SymbolId → List (String × TypeId)
  /-- `is_option_type`, `is_result_type`, `is_poll_type` of a nominal type. -/
  builtinVariants : SymbolId → List (String × Nat)
  /-- IEEE equality of a literal with a value. -/
  floatEqual : List Char → Nat → Bool

/-- Both sides of `==` on a literal. -/
def Lit.isValue (info : TypeInfo) : Lit → Value → Bool
  | .int lexeme, .int n => lexeme.value == some n
  | .negInt lexeme, .int n => lexeme.value.map (- ·) == some n
  | .bool b, .bool c => b == c
  | .char a, .char b => a == b
  | .str s, .str t => s == t
  | .float lexeme, .float bits => info.floatEqual lexeme bits
  | _, _ => false

/-- `start <= v` and `v <= stop`, or `v < stop`. -/
def inRange (start : Lit) (inclusive : Bool) (stop : Lit) (v : Value) : Bool :=
  match start.key, v.key, stop.key with
  | some a, some n, some b => decide (a ≤ n) &&
      (if inclusive then decide (n ≤ b) else decide (n < b))
  | _, _, _ => false

namespace TypeInfo

variable (info : TypeInfo)

/-- `peel_ref_scrutinee_type`: references are looked through, four levels deep. -/
def peel (ty : TypeId) : ArType := go 4 (info.interner.resolve ty)
where
  go : Nat → ArType → ArType
    | 0, ty => ty
    | fuel + 1, .ref inner => go fuel (info.interner.resolve inner)
    | fuel + 1, .refMut inner => go fuel (info.interner.resolve inner)
    | fuel + 1, .ptr inner => go fuel (info.interner.resolve inner)
    | _ + 1, ty => ty

def variantBySymbol (s : SymbolId) : Option VariantInfo :=
  info.enumVariants.find? fun e => e.symbol == s

variable (owner : SymbolId) (variant : List String)

/-- The first variant of the enum whose name is `variant` or ends in `.variant`. -/
def variantByName : Option VariantInfo :=
  info.enumVariants.find? fun e => e.owner == owner && variant.isSuffixOf e.path

def payloadTypes (e : VariantInfo) (owner : SymbolId) (ty : ArType) : List TypeId :=
  match e.payload with
  | none => []
  | some types =>
    let args := match ty with
      | .named sym args => if sym = owner then info.typeArgs args else []
      | _ => []
    info.instantiate e.symbol args types

/-- The variants of the built-in enums, where they are nominal types. -/
def builtinTag (sym : SymbolId) : List String → Option Nat
  | [variant] => (info.builtinVariants sym).lookup variant
  | _ => none

/-- Tag and payload types of a variant of `owner` given by its name. -/
def namedVariant (ty : ArType) : Option (Nat × List TypeId) :=
  match info.variantByName owner variant with
  | some e => some (e.tag, info.payloadTypes e owner ty)
  | none => (info.builtinTag owner variant).map fun tag => (tag, [])

/-- Tag and payload types of an enum pattern: by its resolved symbol, else by name. -/
def enumVariant (symbol : Option SymbolId) (ty : ArType) : Option (Nat × List TypeId) :=
  match symbol.bind info.variantBySymbol with
  | some e => some (e.tag, info.payloadTypes e owner ty)
  | none => info.namedVariant owner variant ty

/-- Tag and payload types of a `Name(..)` pattern on a scrutinee of type `ty`. -/
def tupleVariant (name : List String) (ty : ArType) : Option (Nat × List TypeId) :=
  match ty with
  | .option inner =>
    match name with
    | ["None"] => some (0, [])
    | ["Some"] => some (1, [inner])
    | _ => none
  | .result ok err =>
    match name with
    | ["Ok"] => some (0, [ok])
    | ["Err"] => some (1, [err])
    | _ => none
  | .poll inner =>
    match name with
    | ["Ready"] => some (0, [inner])
    | ["Pending"] => some (1, [])
    | _ => none
  | .named sym _ => info.namedVariant sym name ty
  | _ => none

/-- The item types of a tuple scrutinee, one for each of `n` patterns. -/
def itemTypes (ty : TypeId) (n : Nat) : List TypeId :=
  let types := match info.interner.resolve ty with
    | .tuple args => info.typeArgs args
    | _ => []
  (List.range n).map fun i => types.getD i (info.interner.intern .error)

/-- Index and type of a struct field; an unknown field reads the first one. -/
def field (struct : SymbolId) (name : String) : Nat × TypeId :=
  let fields := info.structFields struct
  match fields.findIdx? (·.1 == name) with
  | some i => (i, (fields.getD i (name, 0)).2)
  | none => (0, info.interner.intern .error)

end TypeInfo

/-! ## Patterns -/

inductive Pattern where
  | wildcard
  | bind
  | literal (lit : Lit)
  | enum (owner : SymbolId) (variant : List String) (symbol : Option SymbolId)
      (payload : List Pattern)
  | typeTuple (name : List String) (payload : List Pattern)
  | struct (symbol : SymbolId) (path : List String) (names : List String)
      (patterns : List Pattern)
  | tuple (items : List Pattern)
  | range (start : Lit) (inclusive : Bool) (stop : Lit)
  | or (alts : List Pattern)
deriving Repr

namespace Pattern

mutual

/-- `pattern_has_bindings`. -/
def hasBindings : Pattern → Bool
  | .bind => true
  | .enum _ _ _ payload => anyBindings payload
  | .typeTuple _ payload => anyBindings payload
  | .struct _ _ _ patterns => anyBindings patterns
  | .tuple items => anyBindings items
  | .or alts => anyBindings alts
  | .wildcard | .literal _ | .range _ _ _ => false

def anyBindings : List Pattern → Bool
  | [] => false
  | p :: ps => p.hasBindings || anyBindings ps

end

mutual

/-- The pattern accepts the value, on a scrutinee of type `ty`. -/
def accepts (info : TypeInfo) : Pattern → TypeId → Value → Bool
  | .wildcard, _, _ => true
  | .bind, _, _ => true
  | .literal lit, _, v => lit.isValue info v
  | .enum owner variant symbol payload, ty, v =>
    match info.enumVariant owner variant symbol (info.peel ty) with
    | some (tag, types) =>
      v.discriminant == some tag && acceptsAll info payload types (v.payload tag)
    | none => false
  | .typeTuple name payload, ty, v =>
    match info.tupleVariant name (info.peel ty) with
    | some (tag, types) =>
      v.discriminant == some tag && acceptsAll info payload types (v.payload tag)
    | none => false
  | .struct symbol _ names patterns, _, v => acceptsFields info symbol names patterns v
  | .tuple items, ty, v => acceptsAll info items (info.itemTypes ty items.length) v.items
  | .range start inclusive stop, _, v => inRange start inclusive stop v
  | .or alts, ty, v => acceptsSome info alts ty v

def acceptsAll (info : TypeInfo) : List Pattern → List TypeId → List Value → Bool
  | [], _, _ => true
  | p :: ps, types, vs =>
    p.accepts info (types.headD (info.interner.intern .error)) (vs.headD .missing) &&
      acceptsAll info ps types.tail vs.tail

def acceptsFields (info : TypeInfo) (symbol : SymbolId) :
    List String → List Pattern → Value → Bool
  | name :: names, p :: ps, v =>
    p.accepts info (info.field symbol name).2 (v.fieldItem (info.field symbol name).1) &&
      acceptsFields info symbol names ps v
  | _, _, _ => true

def acceptsSome (info : TypeInfo) : List Pattern → TypeId → Value → Bool
  | [], _, _ => false
  | p :: ps, ty, v => p.accepts info ty v || acceptsSome info ps ty v

end

end Pattern

end Arandu.Match
