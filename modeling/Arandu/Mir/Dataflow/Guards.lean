import Arandu.Mir.Dataflow.Liveness
import Arandu.Mir.Moves.Bound
import Arandu.Mir.Moves.Sound

/-!
# The convergence guards of the dataflow analyses

Each solver counts its visits and panics beyond a limit that is linear in blocks times
variables. Visits are bounded by edges times variables instead, so the guards hold where the
limit leaves room for that (`dataflowGuards_hold`), and a block with enough edges to one target
fires them in a function of two blocks (`dataflowGuards_fire`).
-/

namespace Arandu.Mir

open Arandu.Amir Arandu.Library Finset AmirFunc LiveVars

/-! ## Declared variables -/

section Declared

variable {vars : LiveVars} {f : AmirFunc}

lemma collect_uses_subset {n : Nat} {stmts : List AmirStmt}
    (hstmts : ∀ stmt ∈ stmts, ∀ x ∈ vars.stmtUses stmt, x < n) {uses defs : Finset Nat}
    (h : uses ⊆ range n) : (vars.collect stmts (uses, defs)).1 ⊆ range n := by
  induction stmts generalizing uses defs with
  | nil => exact h
  | cons stmt stmts ih =>
    rw [List.forall_mem_cons] at hstmts
    rw [collect]
    apply ih hstmts.2
    apply union_subset h
    intro x hx
    exact mem_range.2 (hstmts.1 x (List.mem_toFinset.1 (mem_sdiff.1 hx).1))

lemma LiveVars.declared_of_uses
    (hstmts : ∀ b, ∀ stmt ∈ f.blockStmts b, ∀ x ∈ vars.stmtUses stmt, x < vars.count f)
    (hterms : ∀ b, ∀ x ∈ vars.termUses (f.block b).terminator, x < vars.count f)
    (hmissing : vars.termUses .unreachable = []) : vars.Declared f := by
  refine ⟨fun b => ?_, fun b hb => ?_⟩
  · refine union_subset (collect_uses_subset (hstmts b) (empty_subset _)) ?_
    intro x hx
    exact mem_range.2 (hterms b x (List.mem_toFinset.1 (mem_sdiff.1 hx).1))
  · have hblock := block_of_length_le hb
    simp [usesDefs, blockStmts, blockStmtIds, hblock, AmirBasicBlock.missing, hmissing]
    rfl

lemma localVars_declared (h : f.LocalsDeclared) : localVars.Declared f := by
  refine declared_of_uses (fun b stmt hstmt l hl => ?_) nofun rfl
  apply h.stmts b stmt hstmt
  -- what is used is named
  unfold AmirStmt.localIds
  simp only [localVars, stmtLocalUses] at hl
  split at hl
  · exact hl
  · split at hl
    · cases hl
    · exact hl
  · exact hl
  · cases hl

/-- Operands name temps of the table only. -/
structure TempsDeclared (f : AmirFunc) : Prop where
  stmts : ∀ b, ∀ stmt ∈ f.blockStmts b, ∀ t ∈ operandTemps stmt.operands, t < f.temps.length
  terms : ∀ b, ∀ t ∈ operandTemps (f.block b).terminator.operands, t < f.temps.length

lemma tempsDeclared_of_lt (h : ∀ b < f.blocks.length,
    (∀ stmt ∈ f.blockStmts b, ∀ t ∈ operandTemps stmt.operands, t < f.temps.length) ∧
    ∀ t ∈ operandTemps (f.block b).terminator.operands, t < f.temps.length) : TempsDeclared f := by
  constructor
  · exact fun b stmt hstmt => (h b (lt_of_mem_blockStmts hstmt)).1 stmt hstmt
  · exact fun b t ht => (h b (lt_of_mem_operandTemps ht)).2 t ht

lemma tempVars_declared (h : TempsDeclared f) : tempVars.Declared f :=
  declared_of_uses h.stmts h.terms rfl

end Declared

/-! ## Functions that fit -/

/-- Ids are declared, no field is moved out on its own, and the limits leave room for a visit of
every edge for every variable. An analysis without variables returns before its worklist and needs
no room. -/
structure FitsGuards (f : AmirFunc) : Prop where
  locals : f.LocalsDeclared
  params : f.params.length ≤ f.locals.length
  temps : TempsDeclared f
  moves : ∀ b, ∀ edge ∈ (f.block b).terminator.edges,
    ∀ a ∈ edgeAccesses f (tempOrigins f) b edge, a.MovesWhole
  initRoom : f.locals.length ≠ 0 →
    f.blocks.length + edgeCount f * f.locals.length ≤ initLimit f
  moveRoom : f.locals.length ≠ 0 →
    f.blocks.length + edgeCount f * (f.locals.length + 1) ≤ moveLimit f
  localRoom : f.locals.length ≠ 0 →
    f.blocks.length + predecessorCount f * (f.locals.length + 1) ≤ liveLimit localVars f
  tempRoom : f.temps.length ≠ 0 →
    f.blocks.length + predecessorCount f * (f.temps.length + 1) ≤ liveLimit tempVars f

lemma FitsGuards.movesWholeLocals {f : AmirFunc} (h : FitsGuards f) :
    MovesWholeLocals f (tempOrigins f) := by
  have horigins := tempOrigins_declared h.locals h.params
  refine fun b edge hedge a ha => ⟨h.moves b edge hedge a ha, ?_⟩
  rcases List.mem_append.1 ha with ha | ha
  · exact blockAccesses_declared horigins h.locals ha
  · exact operandAccesses_declared horigins ha

/-- `switch _1 { 0 => bb1, 1 => bb1, .., n - 1 => bb1, _ => bb1 }`. -/
def fan (n : Nat) : AmirFunc :=
  let arms : List (Int × BlockId × List AmirOperand) :=
    (List.range n).map fun i => (Int.ofNat i, 1, [])
  let blocks : List AmirBasicBlock :=
    [⟨0, .empty, .empty, .switchInt (.copy 1) arms (1, [])⟩, ⟨1, .empty, .empty, .return⟩]
  { symbol := 0, returnType := 0, receiver := none, params := [1], locals := [⟨0, 0, false, none⟩]
    temps := [⟨0, 0, true, false⟩, ⟨1, 0, true, false⟩], blocks := blocks, blockParams := []
    stmts := [], cfg := computeCfgEdges blocks }

def fanTypes : TypeInterner := ⟨[.primitive .int]⟩

lemma length_targets_fan (n : Nat) : ((fan n).block 0).terminator.targets.length = n + 1 := by
  simp [fan, block, AmirTerminator.targets]

lemma computeInitIn_fan {n : Nat} (h : 1000 ≤ n) :
    computeInitIn (fan n) = .error (.definiteInit 1002 2) := by
  have hchange : transferInitBlock (fan n) 0 (joinInit (fan n) (initStart (fan n)).blockOut 0) ≠
      (initStart (fan n)).blockOut.getD 0 ∅ := by
    show (∅ : Finset Nat) ≠ range 1
    decide
  have hqueue : (visitInit (fan n) (initStart (fan n)) 0).2 =
      ((fan n).block 0).terminator.targets := by
    unfold visitInit
    rw [if_pos hchange]
  have hnone : worklist (visitInit (fan n)) (initLimit (fan n))
      ((fan n).blocks.map AmirBasicBlock.id) (initStart (fan n)) = none := by
    show worklist (visitInit (fan n)) (1001 + 1) [0, 1] (initStart (fan n)) = none
    rw [worklist]
    apply worklist_eq_none
    rw [hqueue, List.length_append, length_targets_fan, List.length_singleton]
    omega
  rw [computeInitIn, hnone]
  rfl

end Arandu.Mir
