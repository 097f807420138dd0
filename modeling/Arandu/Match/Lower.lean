import Arandu.Match.Pattern

/-!
# Match lowering

A `match` becomes a chain of tests, one arm after the other, or, when no arm has a guard or
a binding, a switch on the value with the arms that are no switch cases behind its default
edge.

The CFG of one match is modelled block by block. The body of an arm and its guard are
opaque: a body block runs the arm and goes to the end of the match, a guard block asks the
outcome of the guard. The code of one pattern test is kept as a tree (`Test`): the
straight-line comparisons of `lower_pattern_test` and the branches of
`lower_pattern_test_branch`, each on the scrutinee or on a part read out of it.
-/

namespace Arandu.Match

open Arandu.Amir

/-! ## Errors -/

inductive LowerError where
  | undefinedVariant (variant : List String) (owner : SymbolId)
  | builtinVariant (variant : List String) (type : String)
  | payloadCount (variant : List String) (expected found : Nat)
  | builtinPayloadCount (variant : List String) (expected found : Nat)
  | notAnEnum (ty : ArType)
  | variantTag (variant : List String)
deriving DecidableEq, Repr

/-! ## Pattern tests -/

/-- The code of one pattern test. -/
inductive Test where
  | const (b : Bool)
  | equal (lit : Lit)
  | range (start : Lit) (inclusive : Bool) (stop : Lit)
  /-- `Discriminant(v) == tag` -/
  | hasTag (tag : Nat)
  /-- a test on `EnumPayload(v, tag, index)` -/
  | payload (tag index : Nat) (sub : Test)
  /-- a test on `FieldAccess(v, index)` -/
  | field (index : Nat) (sub : Test)
  | and (a b : Test)
  | or (a b : Test)
  /-- branch on `a`, and only if it holds run `b` -/
  | seq (a b : Test)
deriving DecidableEq, Repr

/-- Where a run of the test on `v` leads: to its success or to its failure block. -/
def Test.run (info : TypeInfo) : Test → Value → Bool
  | .const b, _ => b
  | .equal lit, v => lit.isValue info v
  | .range start inclusive stop, v => inRange start inclusive stop v
  | .hasTag tag, v => v.discriminant == some tag
  | .payload tag index sub, v => sub.run info (v.payloadItem tag index)
  | .field index sub, v => sub.run info (v.fieldItem index)
  | .and a b, v => a.run info v && b.run info v
  | .or a b, v => a.run info v || b.run info v
  | .seq a b, v => if a.run info v then b.run info v else false

/-- The payload count `lower_enum_pattern` accepts; without sub-patterns only the tag is
tested. -/
def checkPayload (variant : List String) (types : List TypeId) (payload : List Pattern) :
    Except LowerError Unit :=
  if payload.isEmpty || types.length == payload.length then .ok ()
  else .error (.payloadCount variant types.length payload.length)

/-- The payload count `Option`, `Result` and `Poll` patterns must have. -/
def checkBuiltinPayload (variant : List String) (types : List TypeId) (payload : List Pattern) :
    Except LowerError Unit :=
  if types.length == payload.length then .ok ()
  else .error (.builtinPayloadCount variant types.length payload.length)

/-- The variant an enum pattern is lowered against: a symbol that is no variant has no tag,
without a symbol the name decides. -/
def TypeInfo.loweredVariant (info : TypeInfo) (owner : SymbolId) (variant : List String) :
    Option SymbolId → Option VariantInfo
  | some s => info.variantBySymbol s
  | none => info.variantByName owner variant

/-- Variant name, tag and payload types of a built-in sum type, or why there are none. -/
def builtinVariant (name : List String) : ArType → Except LowerError (Nat × List TypeId)
  | .option inner =>
    match name with
    | ["None"] => .ok (0, [])
    | ["Some"] => .ok (1, [inner])
    | _ => .error (.builtinVariant name "Option")
  | .result ok err =>
    match name with
    | ["Ok"] => .ok (0, [ok])
    | ["Err"] => .ok (1, [err])
    | _ => .error (.builtinVariant name "Result")
  | .poll inner =>
    match name with
    | ["Ready"] => .ok (0, [inner])
    | ["Pending"] => .ok (1, [])
    | _ => .error (.builtinVariant name "Poll")
  | other => .error (.notAnEnum other)

mutual

/-- `lower_pattern_test`: a boolean computed without branching. The sub-patterns of an
enum pattern are tested whether the tag fits or not. -/
def lowerTest (info : TypeInfo) : Pattern → TypeId → Except LowerError Test
  | .wildcard, _ => .ok (.const true)
  | .bind, _ => .ok (.const true)
  | .literal lit, _ => .ok (.equal lit)
  | .enum owner variant symbol payload, ty =>
    match info.loweredVariant owner variant symbol with
    | none => .error (.undefinedVariant variant owner)
    | some e => do
      let types := info.payloadTypes e owner (info.peel ty)
      checkPayload variant types payload
      lowerPayloadTests info e.tag payload types 0 (.hasTag e.tag)
  | .typeTuple name payload, ty =>
    match info.peel ty with
    | .named sym args =>
      match info.variantByName sym name with
      | none => .error (.undefinedVariant name sym)
      | some e => do
        let types := info.payloadTypes e sym (.named sym args)
        checkPayload name types payload
        lowerPayloadTests info e.tag payload types 0 (.hasTag e.tag)
    | peeled => do
      let (tag, types) ← builtinVariant name peeled
      checkBuiltinPayload name types payload
      lowerPayloadTests info tag payload types 0 (.hasTag tag)
  | .struct symbol _ names patterns, _ =>
    lowerFieldTests info symbol names patterns (.const true)
  | .tuple items, ty => lowerItemTests info items (info.itemTypes ty items.length) 0 (.const true)
  | .range start inclusive stop, _ => .ok (.range start inclusive stop)
  | .or [], _ => .ok (.const false)
  | .or (p :: ps), ty => do
    let first ← lowerTest info p ty
    lowerOrTests info ps ty first

def lowerPayloadTests (info : TypeInfo) (tag : Nat) :
    List Pattern → List TypeId → Nat → Test → Except LowerError Test
  | p :: ps, ty :: types, index, acc => do
    let sub ← lowerTest info p ty
    lowerPayloadTests info tag ps types (index + 1) (.and acc (.payload tag index sub))
  | _, _, _, acc => .ok acc

def lowerFieldTests (info : TypeInfo) (symbol : SymbolId) :
    List String → List Pattern → Test → Except LowerError Test
  | name :: names, p :: ps, acc => do
    let sub ← lowerTest info p (info.field symbol name).2
    lowerFieldTests info symbol names ps (.and acc (.field (info.field symbol name).1 sub))
  | _, _, acc => .ok acc

def lowerItemTests (info : TypeInfo) :
    List Pattern → List TypeId → Nat → Test → Except LowerError Test
  | p :: ps, ty :: types, index, acc => do
    let sub ← lowerTest info p ty
    lowerItemTests info ps types (index + 1) (.and acc (.field index sub))
  | _, _, _, acc => .ok acc

def lowerOrTests (info : TypeInfo) :
    List Pattern → TypeId → Test → Except LowerError Test
  | [], _, acc => .ok acc
  | p :: ps, ty, acc => do
    let next ← lowerTest info p ty
    lowerOrTests info ps ty (.or acc next)

end

/-- At most one sub-pattern, and that a `Bind` or `Wildcard`: the tag decides. -/
def tagDecides : List Pattern → Bool
  | [] | [.wildcard] | [.bind] => true
  | _ => false

mutual

/-- `lower_pattern_test_branch`: the payload of an enum is read only where its variant was
selected. -/
def lowerTestBranch (info : TypeInfo) : Pattern → TypeId → Except LowerError Test
  | .enum owner variant symbol payload, ty =>
    match info.loweredVariant owner variant symbol with
    | some e =>
      let types := info.payloadTypes e owner (info.peel ty)
      if types.length = payload.length then
        if tagDecides payload then .ok (.hasTag e.tag)
        else do
          let sub ← lowerPayloadBranches info e.tag payload types 0
          .ok (.seq (.hasTag e.tag) sub)
      else lowerTest info (.enum owner variant symbol payload) ty
    | none => lowerTest info (.enum owner variant symbol payload) ty
  | .typeTuple name payload, ty =>
    match builtinVariant name (info.peel ty) with
    | .ok (tag, types) =>
      if tagDecides payload then .ok (.hasTag tag)
      else if payload.length = 1 ∧ types.length = 1 then do
        let sub ← lowerPayloadBranches info tag payload types 0
        .ok (.seq (.hasTag tag) sub)
      else lowerTest info (.typeTuple name payload) ty
    | .error _ => lowerTest info (.typeTuple name payload) ty
  | p, ty => lowerTest info p ty

/-- The tests of the payload items, each reached only if those before succeeded. -/
def lowerPayloadBranches (info : TypeInfo) (tag : Nat) :
    List Pattern → List TypeId → Nat → Except LowerError Test
  | p :: ps, ty :: types, index => do
    let sub ← lowerTestBranch info p ty
    match ps with
    | [] => .ok (.payload tag index sub)
    | _ :: _ => do
      let rest ← lowerPayloadBranches info tag ps types (index + 1)
      .ok (.seq (.payload tag index sub) rest)
  | _, _, _ => .ok (.const true)

end

/-! ## Arms and plans -/

structure Arm where
  pattern : Pattern
  guarded : Bool
deriving Repr

inductive ArmClass where
  | unitVariant (tag : Nat)
  | intLiteral (value : Int)
  | wildcard
  | complex
deriving DecidableEq, Repr

variable (info : TypeInfo) (enumId : SymbolId)

/-- By symbol, by name, by the names of the built-in enums, and last by
the end of a qualified name. -/
def enumVariantTag (variant : List String) (symbol : Option SymbolId) : Except LowerError Nat :=
  match symbol.bind info.variantBySymbol with
  | some e => .ok e.tag
  | none =>
    match info.enumVariants.find? fun e =>
      e.owner == enumId && e.path.getLast?.map (fun name => [name]) == some variant with
    | some e => .ok e.tag
    | none =>
      match info.builtinTag enumId variant with
      | some tag => .ok tag
      | none =>
        match info.variantByName enumId variant with
        | some e => .ok e.tag
        | none => .error (.variantTag variant)

def classifyEnumArm :
    Pattern → Except LowerError ArmClass
  | .wildcard => .ok .wildcard
  | .enum _ variant symbol [] => do
    let tag ← enumVariantTag info enumId variant symbol
    .ok (.unitVariant tag)
  | .typeTuple name [] => do
    let tag ← enumVariantTag info enumId name none
    .ok (.unitVariant tag)
  | _ => .ok .complex

def classifyIntArm : Pattern → ArmClass
  | .wildcard => .wildcard
  | .literal lit =>
    match lit.toI128 with
    | some v => .intLiteral v
    | none => .complex
  | _ => .complex

inductive OtherwisePlan where
  | arm (index : Nat)
  | chain (indices : List Nat)
  | unreachable
deriving DecidableEq, Repr

inductive SwitchOn where
  | tag | value
deriving DecidableEq, Repr

/-- Switch cases with their arms, and what the default edge leads to. -/
structure SwitchPlan where
  discriminant : SwitchOn
  cases : List (Int × Nat)
  otherwise : OtherwisePlan
deriving DecidableEq, Repr

def otherwiseOf : List Nat → OtherwisePlan
  | [] => .unreachable
  | [i] => .arm i
  | is => .chain is

/-- The classes of the arms, in order. -/
def classifyArms (classify : Pattern → Except LowerError ArmClass) :
    List Arm → Except LowerError (List ArmClass)
  | [] => .ok []
  | arm :: arms => do
    let c ← classify arm.pattern
    let cs ← classifyArms classify arms
    .ok (c :: cs)

/-- The indices `i` with a class `c` that `f` selects, in order, with what it selects. -/
def select {α : Type} (f : ArmClass → Option α) (classes : List ArmClass) : List (α × Nat) :=
  classes.zipIdx.filterMap fun ci => (f ci.1).map fun a => (a, ci.2)

/-- The tag of a unit variant. -/
def ArmClass.unitTag : ArmClass → Option Int
  | .unitVariant tag => some tag
  | _ => none

def ArmClass.isWildcard : ArmClass → Option Unit
  | .wildcard => some ()
  | _ => none

/-- An enum switch is only made without such arms. -/
def ArmClass.isComplex : ArmClass → Bool
  | .intLiteral _ | .complex => true
  | .unitVariant _ | .wildcard => false

def ArmClass.literalValue : ArmClass → Option Int
  | .intLiteral v => some v
  | _ => none

/-- The arms an integer switch leaves to its default edge. -/
def ArmClass.isRest : ArmClass → Option Unit
  | .intLiteral _ => none
  | _ => some ()

open ArmClass

def buildEnumSwitchPlan (arms : List Arm) : Except LowerError (Option SwitchPlan) := do
  let classes ← classifyArms (classifyEnumArm info enumId) arms
  let units := select unitTag classes
  let wildcards := select isWildcard classes
  if classes.any isComplex || units.isEmpty then .ok none
  else .ok (some ⟨.tag, units, otherwiseOf (wildcards.map Prod.snd)⟩)

def buildIntSwitchPlan (arms : List Arm) : Option SwitchPlan :=
  let classes := arms.map fun arm => classifyIntArm arm.pattern
  let literals := select literalValue classes
  let rest := select isRest classes
  if literals.isEmpty then none
  else some ⟨.value, literals, otherwiseOf (rest.map Prod.snd)⟩

/-- `build_match_switch_plan_from_ty`. -/
def buildMatchSwitchPlan (valueTy : ArType) (arms : List Arm) :
    Except LowerError (Option SwitchPlan) :=
  if arms.any (·.guarded) then .ok none
  else if arms.any (·.pattern.hasBindings) then .ok none
  else
    match valueTy with
    | .named enumId _ => buildEnumSwitchPlan info enumId arms
    | .primitive .int | .intLiteral => .ok (buildIntSwitchPlan arms)
    | _ => .ok none

/-! ## Blocks -/

/-- What ends a block of the match. -/
inductive Term where
  | switchInt (discriminant : SwitchOn) (targets : List (Int × BlockId)) (otherwise : BlockId)
  | test (test : Test) (success failure : BlockId)
  | guard (arm : Nat) (ifTrue ifFalse : BlockId)
  /-- run the body of an arm, then go to `next` -/
  | body (arm : Nat) (next : BlockId)
  | unreachable
deriving DecidableEq, Repr

/-- The blocks made so far. -/
structure Builder where
  blocks : List Term
deriving DecidableEq, Repr

namespace Builder

/-- A block is `Unreachable` until its terminator is set. -/
def newBlock (B : Builder) : BlockId × Builder :=
  (B.blocks.length, ⟨B.blocks ++ [.unreachable]⟩)

def setTerminator (B : Builder) (b : BlockId) (term : Term) : Builder :=
  ⟨B.blocks.set b term⟩

/-- The terminator of a block. -/
def term (B : Builder) (b : BlockId) : Term := B.blocks.getD b .unreachable

end Builder

/-- The arm of an index; the source panics outside the list. -/
def armAt (arms : List Arm) (i : Nat) : Arm := arms.getD i ⟨.wildcard, false⟩

/-- The blocks of one arm of the chain: `bb_match`, `bb_next`, and `bb_guard` if the arm
has a guard. The current block gets the test. -/
def emitArm (arm : Arm) (idx : Nat) (test : Test) (bbEnd current : BlockId) (B : Builder) :
    BlockId × Builder :=
  let (bbMatch, B) := B.newBlock
  let (bbNext, B) := B.newBlock
  let B :=
    if arm.guarded then
      let (bbGuard, B) := B.newBlock
      (B.setTerminator current (.test test bbGuard bbNext)).setTerminator bbGuard
        (.guard idx bbMatch bbNext)
    else B.setTerminator current (.test test bbMatch bbNext)
  (bbNext, B.setTerminator bbMatch (.body idx bbEnd))

/-- `lower_match_chain_by_indices`: test after test, from the current block on. -/
def lowerChain (info : TypeInfo) (ty : TypeId) (arms : List Arm) (bbEnd : BlockId) :
    List Nat → BlockId → Builder → Except LowerError Builder
  | [], _, B => .ok B
  | idx :: indices, current, B => do
    let arm := armAt arms idx
    let test ← lowerTestBranch info arm.pattern ty
    let (bbNext, B) := emitArm arm idx test bbEnd current B
    lowerChain info ty arms bbEnd indices bbNext
      (if indices.isEmpty then B.setTerminator bbNext .unreachable else B)

/-- One block for every switch case. -/
def caseBlocks : List (Int × Nat) → Builder → List (Int × Nat × Nat) × Builder
  | [], B => ([], B)
  | (value, arm) :: cases, B =>
    let (block, B) := B.newBlock
    let (rest, B) := caseBlocks cases B
    ((value, arm, block) :: rest, B)

def caseBodies (bbEnd : BlockId) : List (Int × Nat × Nat) → Builder → Builder
  | [], B => B
  | (_, arm, block) :: cases, B => caseBodies bbEnd cases (B.setTerminator block (.body arm bbEnd))

def emitMatchSwitch (info : TypeInfo) (ty : TypeId) (arms : List Arm) (bbEnd : BlockId)
    (plan : SwitchPlan) (entry : BlockId) (B : Builder) : Except LowerError Builder :=
  let (cases, B) := caseBlocks plan.cases B
  let (otherwise, B) := B.newBlock
  let B := B.setTerminator entry
    (.switchInt plan.discriminant (cases.map fun c => (c.1, c.2.2)) otherwise)
  let B := caseBodies bbEnd cases B
  match plan.otherwise with
  | .arm idx => .ok (B.setTerminator otherwise (.body idx bbEnd))
  | .chain indices => lowerChain info ty arms bbEnd indices otherwise B
  | .unreachable => .ok (B.setTerminator otherwise .unreachable)

/-- Block 0 evaluates the scrutinee, block 1 follows the match. -/
def lowerMatch (info : TypeInfo) (ty : TypeId) (arms : List Arm) : Except LowerError Builder := do
  let B : Builder := ⟨[.unreachable, .unreachable]⟩
  match ← buildMatchSwitchPlan info (info.interner.resolve ty) arms with
  | some plan => emitMatchSwitch info ty arms 1 plan 0 B
  | none => lowerChain info ty arms 1 (List.range arms.length) 0 B

/-! ## Runs -/

/-- The number a switch compares with its cases. -/
def Value.switchValue : SwitchOn → Value → Option Int
  | .tag, .variant tag _ => some tag
  | .value, .int n => some n
  | _, _ => none

inductive Ended where
  | joined | unreachable
deriving DecidableEq, Repr

/-- From block `b`, on the value `v` and with the guard outcomes `guards`, the bodies
`ran` are run and the match ends at `o`. Block 1 is the end of the match. -/
inductive Runs (info : TypeInfo) (B : Builder) (v : Value) (guards : Nat → Bool) :
    BlockId → List Nat → Ended → Prop
  | joined : Runs info B v guards 1 [] .joined
  | unreachable {b : BlockId} (hb : b ≠ 1) (hterm : B.term b = .unreachable) :
      Runs info B v guards b [] .unreachable
  | body {b arm next : Nat} {ran : List Nat} {o : Ended} (hb : b ≠ 1)
      (hterm : B.term b = .body arm next) (hrest : Runs info B v guards next ran o) :
      Runs info B v guards b (arm :: ran) o
  | guard {b arm ifTrue ifFalse : Nat} {ran : List Nat} {o : Ended} (hb : b ≠ 1)
      (hterm : B.term b = .guard arm ifTrue ifFalse)
      (hrest : Runs info B v guards (if guards arm then ifTrue else ifFalse) ran o) :
      Runs info B v guards b ran o
  | test {b : Nat} {t : Test} {success failure : Nat} {ran : List Nat} {o : Ended} (hb : b ≠ 1)
      (hterm : B.term b = .test t success failure)
      (hrest : Runs info B v guards (if t.run info v then success else failure) ran o) :
      Runs info B v guards b ran o
  | switchInt {b : Nat} {on : SwitchOn} {targets : List (Int × BlockId)} {otherwise : Nat}
      {ran : List Nat} {o : Ended} (hb : b ≠ 1)
      (hterm : B.term b = .switchInt on targets otherwise)
      (hrest : Runs info B v guards (((targets.find? fun t =>
        some t.1 == v.switchValue on).map Prod.snd).getD otherwise) ran o) :
      Runs info B v guards b ran o

end Arandu.Match
