import Arandu.Amir.Cfg

/-!
# The AMIR validator

`validateAmirFunc` lists every violated invariant of a function: parameter and statement
ranges, block ids, edge targets and arguments, reachability, poison types, and the typing
of generational-arena and vector operations. Diagnostics keep the data of their texts.
-/

namespace Arandu.Amir

open Arandu.Library List AmirFunc

/-! ## Diagnostics -/

/-- The role of an operand in a generational-arena diagnostic. -/
inductive GenLabel where
  | insertResult | insertPayload | setResult | setPayload | upsertResult | upsertPayload
  | handle
deriving DecidableEq, Repr

inductive ValidateError where
  | noBlocks
  | paramRange (block start len pool : Nat)
  | blockId (index id : Nat)
  | missingTarget (block target : Nat)
  | edgeArity (block given target expected : Nat)
  | edgeType (block arg target : Nat) (actual expected : TypeId)
  | stmtRange (block start stop table : Nat)
  | stmtOwner (stmt previous block : Nat)
  | unreachable (block : Nat)
  | localId (index id : Nat)
  | localError (id : Nat)
  | tempId (index id : Nat)
  | tempError (id : Nat)
  | missingParamTemp (block param temp : Nat)
  | paramType (block param : Nat) (paramTy : TypeId) (temp : Nat) (tempTy : TypeId)
  | genResult (actual declared : TypeId)
  | genPayload (label : GenLabel) (actual declared : TypeId)
  | genRef (label : GenLabel) (actual : TypeId)
  | genEscape (temp : Nat)
  | vector (temp : Nat)
deriving DecidableEq, Repr

/-! ## Types of operands -/

section Checks

variable (f : AmirFunc) (interner : TypeInterner) (op : AmirOperand)

def operandType : Option TypeId :=
  match op with
  | .copy t | .move t => (f.temps[t]?).map AmirTemp.ty
  | .constant (.bool _) => some (interner.intern (.primitive .bool))
  | .constant .nil | .constant (.pool _) | .functionRef _ | .globalRef _ => none

/-- Equal, or an untyped literal on either side. -/
def edgeTypesCompatible (actual expected : TypeId) : Bool :=
  actual == expected || (interner.resolve actual).literalAbsorbs (interner.resolve expected) ||
    (interner.resolve expected).literalAbsorbs (interner.resolve actual)

/-! ## Blocks and edges -/

def paramRangeErrors : List ValidateError :=
  f.blocks.zipIdx.flatMap fun bi =>
    let start := bi.1.params.start
    let len := bi.1.params.len
    let pool := f.blockParams.length
    if start > pool ∨ len > pool - start then [.paramRange bi.2 start len pool] else []

def edgeErrors (i : Nat) (edge : BlockId × List AmirOperand) : List ValidateError :=
  match f.blocks[edge.1]? with
  | none => []
  | some target =>
    let params := f.paramsOf target.params
    (if edge.2.length ≠ params.length then
      [.edgeArity i edge.2.length edge.1 params.length] else []) ++
    (edge.2.zip params).zipIdx.flatMap fun ap =>
      match operandType f interner ap.1.1 with
      | none => []
      | some argTy =>
        if edgeTypesCompatible interner argTy ap.1.2.ty then []
        else [.edgeType i ap.2 edge.1 argTy ap.1.2.ty]

def blockErrors (i : Nat) (block : AmirBasicBlock) : List ValidateError :=
  (if block.id ≠ i then [.blockId i block.id] else []) ++
  (block.terminator.targets.flatMap fun s =>
    if s ≥ f.blocks.length then [.missingTarget i s] else []) ++
  block.terminator.edges.flatMap (edgeErrors f interner i)

/-! ## Statement ownership -/

/-- Block `j` exists and its statement range lies in the table. -/
def rangeInTable (j : Nat) : Bool :=
  match f.blocks[j]? with
  | some b => b.statements.endUsize ≤ f.stmts.length
  | none => false

/-- The content of `stmt_owner[k]` when block `i` is checked: the last earlier owner. -/
def previousOwner (i k : Nat) : Option BlockId :=
  ((List.range i).filter fun j =>
    rangeInTable f j && decide (k ∈ (f.block j).statements.iterIds)).getLast?

def stmtErrors (i : Nat) (block : AmirBasicBlock) : List ValidateError :=
  let range := block.statements
  if range.endUsize > f.stmts.length then
    [.stmtRange i range.start range.endUsize f.stmts.length]
  else range.iterIds.flatMap fun k =>
    match previousOwner f i k with
    | some previous => [.stmtOwner k previous i]
    | none => []

def reachErrors : List ValidateError :=
  let reachable := reachableBlocksDense f
  f.blocks.zipIdx.flatMap fun bi =>
    if bi.2 = 0 then []
    else if bi.2 ∉ reachable ∧ bi.1.terminator ≠ .unreachable then [.unreachable bi.2]
    else []

/-! ## Locals, temps and parameters -/

def localErrors : List ValidateError :=
  f.locals.zipIdx.flatMap fun li =>
    (if li.1.id ≠ li.2 then [.localId li.2 li.1.id] else []) ++
    (if interner.isError li.1.ty then [.localError li.1.id] else [])

def tempErrors : List ValidateError :=
  f.temps.zipIdx.flatMap fun ti =>
    (if ti.1.id ≠ ti.2 then [.tempId ti.2 ti.1.id] else []) ++
    (if interner.isError ti.1.ty then [.tempError ti.1.id] else [])

def paramErrors (i : Nat) (block : AmirBasicBlock) : List ValidateError :=
  (f.paramsOf block.params).zipIdx.flatMap fun pi =>
    match f.temps[pi.1.id]? with
    | none => [.missingParamTemp i pi.2 pi.1.id]
    | some temp =>
      if temp.ty ≠ pi.1.ty then [.paramType i pi.2 pi.1.ty pi.1.id temp.ty] else []

/-! ## Generational arenas -/

def requireGenRefType (actual : TypeId) (label : GenLabel) : List ValidateError :=
  if interner.resolve actual ≠ .genRef then [.genRef label actual] else []

def requireGenRefOperand : List ValidateError :=
  match operandType f interner op with
  | none => []
  | some actual => requireGenRefType interner actual .handle

def requirePayloadOperand (expected : TypeId) (label : GenLabel) : List ValidateError :=
  match operandType f interner op with
  | none => []
  | some actual => if actual ≠ expected then [.genPayload label actual expected] else []

def requireGenResult (actual expected : TypeId) : List ValidateError :=
  if actual ≠ expected then [.genResult actual expected] else []

def genStmtErrors (stmt : AmirStmt) : List ValidateError :=
  match stmt with
  | .assign lhs rhs =>
    match f.temps[lhs]? with
    | none => []
    | some temp =>
      match rhs with
      | .genInsert value payloadTy =>
        requireGenRefType interner temp.ty .insertResult ++
          requirePayloadOperand f interner value payloadTy .insertPayload
      | .genGet genRef payloadTy | .genRemove genRef payloadTy =>
        requireGenRefOperand f interner genRef ++ requireGenResult temp.ty payloadTy
      | .genSet genRef value payloadTy =>
        requireGenRefType interner temp.ty .setResult ++ requireGenRefOperand f interner genRef ++
          requirePayloadOperand f interner value payloadTy .setPayload
      | .genUpsert genRef value payloadTy =>
        requireGenRefType interner temp.ty .upsertResult ++
          (if genRef = .constant .nil then [] else requireGenRefOperand f interner genRef) ++
          requirePayloadOperand f interner value payloadTy .upsertPayload
      | _ => []
  | _ => []

def borrowedGenResults : List TempId :=
  f.stmts.filterMap fun s =>
    match s with
    | .assign lhs (.genGet _ _) =>
      match f.temps[lhs]? with
      | some temp => if temp.isCopy then none else some lhs
      | none => none
    | _ => none

/-- A use that only looks inside a borrowed value. -/
def safeProjection (references : AmirOperand → Bool) : AmirRvalue → Bool
  | .fieldAccess base _ | .len base | .sliceData base | .discriminant base
  | .enumPayload base _ _ _ _ _ => references base
  | .indexAccess base index _ => references base && !references index
  | _ => false

/-- Operands a non-assignment statement uses up. -/
def escapingOperands : AmirStmt → List AmirOperand
  | .store _ rhs | .free rhs => [rhs]
  | .call _ callee args => callee :: args
  | _ => []

def borrowedGenErrors (borrowed : TempId) : List ValidateError :=
  let references : AmirOperand → Bool := fun op => op.temp? == some borrowed
  (f.stmts.flatMap fun s =>
    match s with
    | .assign lhs rhs =>
      if lhs = borrowed ∧ (rhs matches .genGet _ _) then []
      else if !rhs.operands.any references then []
      else if safeProjection references rhs then [] else [.genEscape borrowed]
    | s => if (escapingOperands s).any references then [.genEscape borrowed] else []) ++
  f.blocks.flatMap fun b =>
    if b.terminator.operands.any references then [.genEscape borrowed] else []

def validateGenOperations : List ValidateError :=
  f.stmts.flatMap (genStmtErrors f interner) ++ (borrowedGenResults f).flatMap (borrowedGenErrors f)

/-! ## Vectors -/

/-- The closed type and operation matrix of vector rvalues; `none` for other rvalues. -/
def vectorRvalueValid (result : ArType) (rhs : AmirRvalue) : Option Bool :=
  let operand : AmirOperand → Option ArType := fun op =>
    (operandType f interner op).map interner.resolve
  let same : AmirOperand → Bool := fun op => operand op == some result
  match rhs with
  | .vectorOp op l r =>
    some ((match result with | .vector v => op.supports v | _ => false) && same l && same r)
  | .vectorCompare _ l r =>
    some (result == .vector .u8x16 &&
      (match operand l with | some (.vector _) => true | _ => false) && operand l == operand r)
  | .vectorSelect m t e =>
    some ((match result with | .vector _ => true | _ => false) &&
      operand m == some (.vector .u8x16) && same t && same e)
  | .vectorSplat v =>
    some (match result with
      | .vector s => operand v == some (.primitive s.lane)
      | _ => false)
  | .vectorShuffle l r mask =>
    some ((match result with | .vector _ => true | _ => false) && same l && same r &&
      mask.all (· < 32))
  | .vectorExtractLane v lane =>
    some (match operand v with
      | some (.vector s) => lane < s.lanes && result == .primitive s.lane
      | _ => false)
  | .vectorInsertLane v lane x =>
    some ((match result with
      | .vector s => lane < s.lanes && operand x == some (.primitive s.lane)
      | _ => false) && same v)
  | _ => none

def validateVectorOperations : List ValidateError :=
  f.stmts.flatMap fun s =>
    match s with
    | .assign lhs rhs =>
      match f.temps[lhs]? with
      | none => []
      | some temp =>
        if vectorRvalueValid f interner (interner.resolve temp.ty) rhs = some false then
          [.vector lhs] else []
    | _ => []

/-! ## The validator -/

def validateAmirFunc : List ValidateError :=
  if f.blocks.isEmpty then [.noBlocks]
  else if !(paramRangeErrors f).isEmpty then paramRangeErrors f
  else
    (f.blocks.zipIdx.flatMap fun bi => blockErrors f interner bi.2 bi.1) ++
    (f.blocks.zipIdx.flatMap fun bi => stmtErrors f bi.2 bi.1) ++
    reachErrors f ++ localErrors f interner ++ tempErrors f interner ++
    (f.blocks.zipIdx.flatMap fun bi => paramErrors f bi.2 bi.1) ++
    validateGenOperations f interner ++ validateVectorOperations f interner

end Checks

/-! ## What an accepted function satisfies -/

/-- Edges lead to blocks that take their arguments, and no two blocks share a statement. -/
structure BlocksFit (f : AmirFunc) : Prop where
  nonempty : 0 < f.blocks.length
  targets : ∀ m n, f.Edge m n → n < f.blocks.length
  arity : ∀ m n args, (n, args) ∈ (f.block m).terminator.edges →
    args.length = (f.blockParamsOf n).length
  stmtRange : ∀ b < f.blocks.length, (f.block b).statements.endUsize ≤ f.stmts.length
  stmtOwner : ∀ b b' k, k ∈ f.blockStmtIds b → k ∈ f.blockStmtIds b' → b = b'

/-- The structural content of an empty diagnostic list. -/
structure WellFormed (f : AmirFunc) : Prop extends BlocksFit f where
  paramRange : ∀ b < f.blocks.length, (f.block b).params.endUsize ≤ f.blockParams.length
  blockId : ∀ b < f.blocks.length, (f.block b).id = b
  dead : ∀ b < f.blocks.length, b ≠ 0 → ¬ Reachable f.Edge 0 b →
    (f.block b).terminator = .unreachable
  paramTemp : ∀ b, ∀ p ∈ f.blockParamsOf b, ∃ t, f.temps[p.id]? = some t ∧ t.ty = p.ty

lemma WellFormed.reachable_of_edge {f : AmirFunc} (hwf : WellFormed f) {m n : BlockId}
    (hedge : f.Edge m n) : Reachable f.Edge 0 m := by
  by_contra hdead
  have hne : m ≠ 0 := fun h0 => hdead (h0 ▸ .start)
  rw [Edge, hwf.dead m (lt_of_edge hedge) hne hdead] at hedge
  cases hedge

section Accepted

variable {f : AmirFunc} {interner : TypeInterner} {b : BlockId}

lemma flatMap_zipIdx_nil {β γ : Type} {xs : List β} {g : β × Nat → List γ}
    (h : xs.zipIdx.flatMap g = []) {i : Nat} {x : β} (hx : xs[i]? = some x) : g (x, i) = [] :=
  flatMap_eq_nil_iff.1 h (x, i) (mem_zipIdx_iff_getElem?.2 hx)

lemma blockErrors_nil (h : blockErrors f interner b (f.block b) = []) :
    (f.block b).id = b ∧ (∀ s ∈ (f.block b).terminator.targets, s < f.blocks.length) ∧
      ∀ e ∈ (f.block b).terminator.edges, edgeErrors f interner b e = [] := by
  simp only [blockErrors, append_eq_nil_iff, flatMap_eq_nil_iff] at h
  obtain ⟨⟨hid, htargets⟩, hedges⟩ := h
  refine ⟨?_, ?_, hedges⟩
  · by_contra hne
    simp [hne] at hid
  · intro s hs
    have := htargets s hs
    by_contra hge
    simp [not_lt.1 hge] at this

lemma edgeErrors_arity {i n : BlockId} {args : List AmirOperand}
    (hn : n < f.blocks.length) (h : edgeErrors f interner i (n, args) = []) :
    args.length = (f.blockParamsOf n).length := by
  unfold edgeErrors at h
  rw [getElem?_blocks hn] at h
  by_contra hne
  rw [blockParamsOf] at hne
  simp [hne] at h

lemma stmtErrors_nil (h : stmtErrors f b (f.block b) = []) :
    (f.block b).statements.endUsize ≤ f.stmts.length ∧
      ∀ k ∈ f.blockStmtIds b, previousOwner f b k = none := by
  unfold stmtErrors at h
  dsimp only at h
  split at h
  · cases h
  next hle =>
    refine ⟨by omega, fun k hk => ?_⟩
    have hk' := flatMap_eq_nil_iff.1 h k hk
    cases hprev : previousOwner f b k with
    | none => rfl
    | some p => simp [hprev] at hk'

lemma not_mem_of_previousOwner {j : BlockId} {k : InstrId} (hj : j < b)
    (hrange : rangeInTable f j = true) (h : previousOwner f b k = none) : k ∉ f.blockStmtIds j := by
  intro hk
  rw [previousOwner, getLast?_eq_none_iff, filter_eq_nil_iff] at h
  exact h j (mem_range.2 hj) (by simpa [hrange, blockStmtIds] using hk)

lemma wellFormed_of_validate (h : validateAmirFunc f interner = []) : WellFormed f := by
  unfold validateAmirFunc at h
  split at h
  · cases h
  next hne =>
  split at h
  next hrange => simp [h] at hrange
  next hparams =>
  have hlen : 0 < f.blocks.length := by
    cases hb : f.blocks with
    | nil => simp [hb] at hne
    | cons => simp
  have hparams : paramRangeErrors f = [] := by simpa using hparams
  simp only [append_eq_nil_iff] at h
  obtain ⟨⟨⟨⟨⟨⟨⟨hblocks, hstmts⟩, hreach⟩, -⟩, -⟩, hpt⟩, -⟩, -⟩ := h
  have hblock := fun b (hb : b < f.blocks.length) =>
    blockErrors_nil (flatMap_zipIdx_nil hblocks (getElem?_blocks hb))
  have hstmt := fun b (hb : b < f.blocks.length) =>
    stmtErrors_nil (flatMap_zipIdx_nil hstmts (getElem?_blocks hb))
  have htargets : ∀ m n, f.Edge m n → n < f.blocks.length := fun m n he =>
    (hblock m (lt_of_edge he)).2.1 n he
  have hinTable : ∀ b < f.blocks.length, rangeInTable f b = true := by
    intro b hb
    simpa [rangeInTable, getElem?_blocks hb] using (hstmt b hb).1
  refine ⟨⟨hlen, htargets, ?_, fun b hb => (hstmt b hb).1, ?_⟩, ?_, fun b hb => (hblock b hb).1,
    ?_, ?_⟩
  · intro m n args he
    have hedge : f.Edge m n := AmirTerminator.mem_targets_of_mem_edges he
    exact edgeErrors_arity (htargets m n hedge) ((hblock m (lt_of_edge hedge)).2.2 (n, args) he)
  · intro b b' k hk hk'
    have hb := lt_of_mem_blockStmtIds hk
    have hb' := lt_of_mem_blockStmtIds hk'
    rcases Nat.lt_trichotomy b b' with hlt | heq | hlt
    · exact absurd hk (not_mem_of_previousOwner hlt (hinTable b hb) ((hstmt b' hb').2 k hk'))
    · exact heq
    · exact absurd hk' (not_mem_of_previousOwner hlt (hinTable b' hb') ((hstmt b hb).2 k hk))
  · intro b hb
    have := flatMap_zipIdx_nil hparams (getElem?_blocks hb)
    by_contra hgt
    dsimp only [DenseRange.endUsize] at hgt this
    rw [if_pos (by omega)] at this
    cases this
  · intro b hb h0 hunreach
    have := flatMap_zipIdx_nil hreach (getElem?_blocks hb)
    simp only [h0] at this
    by_contra hterm
    have hnot : b ∉ reachableBlocksDense f := by
      intro hmem
      rw [reachableBlocksDense, if_neg (by omega), mem_floodSet hlen] at hmem
      exact hunreach (hmem.mono fun _ _ hedge => hedge.1)
    simp [hnot, hterm] at this
  · intro b p hp
    have hnil := flatMap_zipIdx_nil hpt (getElem?_blocks (lt_of_mem_blockParamsOf hp))
    obtain ⟨i, hi⟩ := getElem?_of_mem hp
    have hone := flatMap_zipIdx_nil hnil hi
    cases htemp : f.temps[p.id]? with
    | none => simp [htemp] at hone
    | some t =>
      refine ⟨t, rfl, ?_⟩
      by_contra hty
      simp [htemp, hty] at hone

end Accepted

end Arandu.Amir
