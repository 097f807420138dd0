import Arandu.Amir.Cfg
import Arandu.Library.Worklist
import Arandu.Mir.AnalysisLimits

/-!
# Definite initialisation

The forward analysis behind O008: a local is initialised at a point if every path stores to it
as a whole. Bit sets are finite sets of ids. The worklist holds a block once for every edge
along which its facts may have changed; `computeInitIn` gives up (the source panics) when more
blocks are visited than its limit allows.

`initGuard_holds` bounds the number of visits: the facts of a block change at most once for
every local, and each change queues every target of its terminator.
-/

namespace Arandu.Mir

open Arandu.Amir Arandu.Library Finset

/-- An analysis that gave up: the assertion that fired. -/
inductive Diverged where
  | definiteInit (limit blocks : Nat)
  | moves (limit blocks : Nat)
  | liveness (limit : Nat)
deriving DecidableEq, Repr

/-! ## Transfer -/

def transferInitStmt : AmirStmt → Finset LocalId → Finset LocalId
  | .store lhs _, initialized =>
    if lhs.projections.isEmpty then insert lhs.localId initialized else initialized
  | .storageDead l, initialized => initialized.erase l
  | _, initialized => initialized

variable (f : AmirFunc) (b : BlockId) (initialized : Finset LocalId)

def initParams : Finset LocalId :=
  (f.blockParamsOf b).foldl (fun s p => insert p.localId s) initialized

def transferInitBlock : Finset LocalId :=
  (f.blockStmts b).foldl (fun s stmt => transferInitStmt stmt s) (initParams f b initialized)

/-! ## The solver -/

structure InitFacts where
  blockIn : List (Finset LocalId)
  blockOut : List (Finset LocalId)
deriving DecidableEq

/-- What holds on every edge into a block; nothing does at the entry. -/
def joinInit (blockOut : List (Finset LocalId)) (b : BlockId) : Finset LocalId :=
  if b = 0 ∨ (f.predecessors b).isEmpty then ∅
  else (f.predecessors b).foldl (fun acc pred => acc ∩ blockOut.getD pred ∅)
    (range f.locals.length)

/-- One round of `compute_init_in`. -/
def visitInit (facts : InitFacts) (b : BlockId) : InitFacts × List Nat :=
  let newIn := joinInit f facts.blockOut b
  let newOut := transferInitBlock f b newIn
  if newOut ≠ facts.blockOut.getD b ∅ then
    (⟨facts.blockIn.set b newIn, facts.blockOut.set b newOut⟩, (f.block b).terminator.targets)
  else (⟨facts.blockIn.set b newIn, facts.blockOut⟩, [])

def initLimit : Nat :=
  f.blocks.length * f.locals.length + dataflowFixpointHeadroom

/-- Everything is initialised until a path shows otherwise. -/
def initStart : InitFacts :=
  let all := List.replicate f.blocks.length (range f.locals.length)
  ⟨all, all⟩

/-- `none` for a function without locals. -/
def computeInitIn : Except Diverged (Option (List (Finset LocalId))) :=
  if f.locals.length = 0 ∨ f.blocks.length = 0 then .ok none
  else
    match worklist (visitInit f) (initLimit f) (f.blocks.map AmirBasicBlock.id) (initStart f) with
    | some facts => .ok (some facts.blockIn)
    | none => .error (.definiteInit (initLimit f) f.blocks.length)

/-- Definitely initialised locals at a block's entry; without locals there are none. -/
def initAtEntry (blockIn : Option (List (Finset LocalId))) (b : BlockId) : Finset LocalId :=
  match blockIn with
  | some blockIn => blockIn.getD b ∅
  | none => ∅

def initializedAtBlockExit : Except Diverged (List (Finset LocalId)) := do
  match ← computeInitIn f with
  | none => .ok (f.blocks.map fun _ => ∅)
  | some blockIn => .ok (blockIn.mapIdx fun b initialized => transferInitBlock f b initialized)

/-- The facts before each statement of a list. -/
def initSnapshots : List AmirStmt → Finset LocalId → List (Finset LocalId)
  | [], _ => []
  | stmt :: stmts, initialized =>
    initialized :: initSnapshots stmts (transferInitStmt stmt initialized)

def initializedBeforeStatements : Except Diverged (List (List (Finset LocalId))) := do
  match ← computeInitIn f with
  | none => .ok (f.blocks.map fun block => (f.blockStmts block.id).map fun _ => ∅)
  | some blockIn => .ok (f.blocks.map fun block =>
      initSnapshots (f.blockStmts block.id) (initParams f block.id (blockIn.getD block.id ∅)))

/-! ## The check -/

/-- The locals a statement needs initialised, in the order they are checked. -/
def initUses : AmirStmt → List LocalId
  | .assign _ rhs => rhs.places.map AmirPlace.localId
  | .store lhs _ => if lhs.projections.isEmpty then [] else [lhs.localId]
  | .destroy place => [place.localId]
  | _ => []

/-- O008: a local that may be uninitialised, with the block of the use. -/
def checkInitStmts : List AmirStmt → Finset LocalId → List (BlockId × LocalId)
  | [], _ => []
  | stmt :: stmts, initialized =>
    ((initUses stmt).filter (· ∉ initialized)).map (fun l => (b, l)) ++
      checkInitStmts stmts (transferInitStmt stmt initialized)

/-- `check_definite_init_by_block`. -/
def checkDefiniteInit : Except Diverged (List (BlockId × LocalId)) := do
  match ← computeInitIn f with
  | none => .ok []
  | some blockIn => .ok (f.blocks.flatMap fun block =>
      checkInitStmts block.id (f.blockStmts block.id)
        (initParams f block.id (blockIn.getD block.id ∅)))

end Arandu.Mir

namespace Arandu.Amir

open Finset

/-! ## Ids in range -/

/-- The locals a statement names. -/
def AmirStmt.localIds : AmirStmt → List LocalId
  | .assign _ rhs => rhs.places.map AmirPlace.localId
  | .store lhs _ => [lhs.localId]
  | .destroy place => [place.localId]
  | .storageLive l | .storageDead l => [l]
  | .call _ _ _ | .free _ | .nop => []

/-- Statements and block parameters name locals of the table only; the bit matrices of the
source panic on any other. -/
structure AmirFunc.LocalsDeclared (f : AmirFunc) : Prop where
  params : ∀ b, ∀ p ∈ f.blockParamsOf b, p.localId < f.locals.length
  stmts : ∀ b, ∀ stmt ∈ f.blockStmts b, ∀ l ∈ stmt.localIds, l < f.locals.length

lemma AmirFunc.localsDeclared_of_lt {f : AmirFunc} (h : ∀ b < f.blocks.length,
    (∀ p ∈ f.blockParamsOf b, p.localId < f.locals.length) ∧
    ∀ stmt ∈ f.blockStmts b, ∀ l ∈ stmt.localIds, l < f.locals.length) : f.LocalsDeclared := by
  constructor
  · exact fun b p hp => (h b (lt_of_mem_blockParamsOf hp)).1 p hp
  · exact fun b stmt hstmt => (h b (lt_of_mem_blockStmts hstmt)).2 stmt hstmt

end Arandu.Amir

namespace Arandu.Mir

open Arandu.Amir Arandu.Library Finset

/-! ## How often the facts can change -/

section Bound

variable {f : AmirFunc} {s t : Finset LocalId} {out : List (Finset LocalId)} {b : BlockId}

lemma transferInitStmt_mono (stmt : AmirStmt) (h : s ⊆ t) :
    transferInitStmt stmt s ⊆ transferInitStmt stmt t := by
  cases stmt with
  | store lhs rhs =>
    simp only [transferInitStmt]
    split
    · exact insert_subset_insert _ h
    · exact h
  | storageDead l => exact erase_subset_erase _ h
  | _ => exact h

lemma transferInitBlock_mono (f : AmirFunc) (b : BlockId) (h : s ⊆ t) :
    transferInitBlock f b s ⊆ transferInitBlock f b t := by
  refine List.foldl_rel ?_ fun stmt _ _ _ => transferInitStmt_mono stmt
  exact List.foldl_rel h fun p _ _ _ => insert_subset_insert p.localId

lemma transferInitBlock_subset (hlocals : f.LocalsDeclared) (b : BlockId)
    (h : s ⊆ range f.locals.length) : transferInitBlock f b s ⊆ range f.locals.length := by
  refine List.foldlRecOn (motive := (· ⊆ range f.locals.length)) _ _
    (List.foldlRecOn (motive := (· ⊆ range f.locals.length)) _ _ h fun s hs p hp => ?_)
    fun s hs stmt hstmt => ?_
  · exact insert_subset (mem_range.2 (hlocals.params b p hp)) hs
  · have hdeclared := hlocals.stmts b stmt hstmt
    cases stmt with
    | store lhs rhs =>
      simp only [transferInitStmt]
      split
      · exact insert_subset (mem_range.2 (hdeclared _ (by simp [AmirStmt.localIds]))) hs
      · exact hs
    | storageDead l => exact (erase_subset _ _).trans hs
    | _ => exact hs

lemma mem_joinInit {l : LocalId} :
    l ∈ joinInit f out b ↔ b ≠ 0 ∧ f.predecessors b ≠ [] ∧ l < f.locals.length ∧
      ∀ m ∈ f.predecessors b, l ∈ out.getD m ∅ := by
  have hfold : ∀ (preds : List BlockId) (s : Finset LocalId),
      l ∈ preds.foldl (fun acc pred => acc ∩ out.getD pred ∅) s ↔
        l ∈ s ∧ ∀ m ∈ preds, l ∈ out.getD m ∅ := by
    intro preds
    induction preds with
    | nil => simp
    | cons m preds ih =>
      intro s
      rw [List.foldl_cons, ih, mem_inter, List.forall_mem_cons, and_assoc]
  unfold joinInit
  split
  next h =>
    simp only [List.isEmpty_iff] at h
    simp only [notMem_empty, false_iff, not_and]
    exact fun hb hpreds => absurd h (not_or.2 ⟨hb, hpreds⟩)
  next h =>
    simp only [List.isEmpty_iff, not_or] at h
    rw [hfold, mem_range]
    exact ⟨fun hl => ⟨h.1, h.2, hl⟩, fun hl => hl.2.2⟩

lemma joinInit_mono {out' : List (Finset LocalId)}
    (h : ∀ b, out.getD b ∅ ⊆ out'.getD b ∅) (b : BlockId) :
    joinInit f out b ⊆ joinInit f out' b := by
  intro l hl
  obtain ⟨hb, hpreds, hlt, hout⟩ := mem_joinInit.1 hl
  exact mem_joinInit.2 ⟨hb, hpreds, hlt, fun m hm => h m (hout m hm)⟩

lemma joinInit_subset (f : AmirFunc) (out : List (Finset LocalId)) (b : BlockId) :
    joinInit f out b ⊆ range f.locals.length :=
  fun _ hl => mem_range.2 (mem_joinInit.1 hl).2.2.1

/-- The facts only ever shrink: recomputing the facts of a block yields no more than is
recorded. -/
structure InitShrinks (f : AmirFunc) (facts : InitFacts) : Prop where
  length : facts.blockOut.length = f.blocks.length
  below : ∀ b < f.blocks.length,
    transferInitBlock f b (joinInit f facts.blockOut b) ⊆ facts.blockOut.getD b ∅

lemma getD_set_subset {new : Finset LocalId}
    (h : new ⊆ out.getD b ∅) (c : BlockId) : (out.set b new).getD c ∅ ⊆ out.getD c ∅ := by
  rcases getD_set_cases out b new ∅ c with ⟨heq, -⟩ | ⟨rfl, -, heq⟩
  · rw [heq]
  · rwa [heq]

/-- The edges still to be queued: one for every target and every local that may yet drop out. -/
def initPotential (f : AmirFunc) (facts : InitFacts) : Nat :=
  tablePotential (fun b out => (f.block b).terminator.targets.length * out.card) facts.blockOut

/-- Every visit is paid for by the local that drops out. -/
lemma visitInit_pays (b : BlockId) {facts : InitFacts} (h : InitShrinks f facts) :
    InitShrinks f (visitInit f facts b).1 ∧
      (visitInit f facts b).2.length + initPotential f (visitInit f facts b).1 ≤
        initPotential f facts := by
  simp only [visitInit]
  split
  next hne =>
    by_cases hb : b < f.blocks.length
    · have hsub := h.below b hb
      have hshrink := getD_set_subset hsub
      have hget : facts.blockOut[b]? = some (facts.blockOut.getD b ∅) := by
        simp [List.getElem?_eq_getElem (h.length.symm ▸ hb)]
      refine ⟨⟨by simp [h.length], fun c hc => ?_⟩, ?_⟩
      · -- what the neighbours see has shrunk as well
        have hmono := transferInitBlock_mono f c (joinInit_mono (f := f) hshrink c)
        by_cases hbc : b = c
        · subst hbc
          rwa [getD_set_self (h.length.symm ▸ hb)]
        · rw [getD_set_ne hbc]
          exact hmono.trans (h.below c hc)
      · have hcard := card_lt_card (lt_of_le_of_ne hsub hne)
        have hset := tablePotential_set
          (f := fun b (out : Finset LocalId) => (f.block b).terminator.targets.length * out.card)
          hget (transferInitBlock f b (joinInit f facts.blockOut b))
        simp only [initPotential]
        have hmul := Nat.mul_le_mul_left (f.block b).terminator.targets.length hcard
        rw [Nat.succ_eq_add_one, Nat.mul_add] at hmul
        omega
    · have hmissing := AmirFunc.block_of_length_le (not_lt.1 hb)
      have hset : facts.blockOut.set b (transferInitBlock f b (joinInit f facts.blockOut b)) =
          facts.blockOut := List.set_eq_of_length_le (h.length.symm ▸ not_lt.1 hb)
      refine ⟨⟨by simp [h.length], ?_⟩, ?_⟩
      · simpa only [hset] using h.below
      · simp [initPotential, hset, hmissing, AmirBasicBlock.missing, AmirTerminator.targets]
  · exact ⟨⟨h.length, h.below⟩, by simp [initPotential]⟩

lemma initShrinks_start (hlocals : f.LocalsDeclared) : InitShrinks f (initStart f) := by
  refine ⟨by simp [initStart], fun b hb => ?_⟩
  have hall : (initStart f).blockOut.getD b ∅ = range f.locals.length := by
    simp [initStart, hb]
  rw [hall]
  exact transferInitBlock_subset hlocals b (joinInit_subset f _ b)

def edgeCount (f : AmirFunc) : Nat :=
  ((List.range f.blocks.length).map fun b => (f.block b).terminator.targets.length).sum

lemma initPotential_start : initPotential f (initStart f) ≤ edgeCount f * f.locals.length := by
  apply tablePotential_replicate_le
  intro b
  rw [card_range]

lemma initGuard_holds (hlocals : f.LocalsDeclared)
    (hroom : f.locals.length ≠ 0 →
      f.blocks.length + edgeCount f * f.locals.length ≤ initLimit f) :
    ∃ blockIn, computeInitIn f = .ok blockIn := by
  unfold computeInitIn
  split
  · exact ⟨_, rfl⟩
  replace hroom := hroom (by omega)
  have hsome : (worklist (visitInit f) (initLimit f) (f.blocks.map AmirBasicBlock.id)
      (initStart f)).isSome :=
    worklist_isSome (InitShrinks f) (initPotential f) (fun _ b => visitInit_pays b)
      (initShrinks_start hlocals)
      ((Nat.add_le_add (by simp) initPotential_start).trans hroom)
  obtain ⟨facts, hfacts⟩ := Option.isSome_iff_exists.1 hsome
  rw [hfacts]
  exact ⟨_, rfl⟩

end Bound

end Arandu.Mir
