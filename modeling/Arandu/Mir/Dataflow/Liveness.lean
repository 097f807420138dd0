import Arandu.Amir.Dominators
import Arandu.Mir.Dataflow.DefiniteInit

/-!
# Liveness of locals and temps

The backward analysis, once for stack locals and once for SSA temps: the two differ in what a
statement uses and defines. A block is queued at most once at a time, but it is queued again
whenever the facts of a successor change.

`liveGuard_holds` bounds the number of visits: the facts of a block change at most once for
every variable, and once more at the first visit.
-/

namespace Arandu.Mir

open Arandu.Amir Arandu.Library Finset

variable {live : List LiveSets} {b : BlockId}

/-! ## Uses and definitions -/

structure LiveVars where
  stmtUses : AmirStmt → List Nat
  stmtDefs : AmirStmt → List Nat
  termUses : AmirTerminator → List Nat
  /-- defined at block entry -/
  entryDefs : AmirFunc → BlockId → List Nat
  count : AmirFunc → Nat

/-- `collect_stmt_uses`: locals are read through places. -/
def stmtLocalUses : AmirStmt → List LocalId
  | .assign _ rhs => rhs.places.map AmirPlace.localId
  | .store lhs _ => if lhs.projections.isEmpty then [] else [lhs.localId]
  | .destroy place => [place.localId]
  | _ => []

/-- `collect_stmt_defs`: a `StorageDead` ends a local like a store does. -/
def stmtLocalDefs : AmirStmt → List LocalId
  | .store lhs _ => if lhs.projections.isEmpty then [lhs.localId] else []
  | .storageDead l => [l]
  | _ => []

def localVars : LiveVars where
  stmtUses := stmtLocalUses
  stmtDefs := stmtLocalDefs
  termUses := fun _ => []
  entryDefs := fun _ _ => []
  count := fun f => f.locals.length

/-- `collect_stmt_temp_uses` and its companions. -/
def tempVars : LiveVars where
  stmtUses := fun stmt => operandTemps stmt.operands
  stmtDefs := fun stmt => stmt.def?.toList
  termUses := fun term => operandTemps term.operands
  entryDefs := fun f b => (f.blockParamsOf b).map BlockParam.id
  count := fun f => f.temps.length

namespace LiveVars

variable (vars : LiveVars)

/-- Uses before a definition in the block, and all definitions. -/
def collect : List AmirStmt → Finset Nat × Finset Nat → Finset Nat × Finset Nat
  | [], acc => acc
  | stmt :: stmts, (uses, defs) =>
    collect stmts (uses ∪ ((vars.stmtUses stmt).toFinset \ defs),
      defs ∪ (vars.stmtDefs stmt).toFinset)

/-- The rows of `block_uses` and `block_defs`. -/
def usesDefs (f : AmirFunc) (b : BlockId) : Finset Nat × Finset Nat :=
  let (uses, defs) := vars.collect (f.blockStmts b) (∅, (vars.entryDefs f b).toFinset)
  (uses ∪ ((vars.termUses (f.block b).terminator).toFinset \ defs), defs)

def transfer (f : AmirFunc) (b : BlockId) (liveOut : Finset Nat) : Finset Nat :=
  (liveOut \ (vars.usesDefs f b).2) ∪ (vars.usesDefs f b).1

end LiveVars

/-! ## The solver -/

structure LiveSets where
  liveIn : Finset Nat
  liveOut : Finset Nat
deriving DecidableEq

def LiveSets.none : LiveSets := ⟨∅, ∅⟩

structure LiveFacts where
  live : List LiveSets
  inWorklist : List Bool
deriving DecidableEq

def queueAll : List BlockId → List Bool → List BlockId × List Bool
  | [], inWorklist => ([], inWorklist)
  | b :: bs, inWorklist =>
    if inWorklist.getD b true then queueAll bs inWorklist
    else
      let (queued, inWorklist) := queueAll bs (inWorklist.set b true)
      (b :: queued, inWorklist)

variable (f : AmirFunc)

/-- What is live at the entry of some successor. -/
def joinLive (live : List LiveSets) (b : BlockId) : Finset Nat :=
  (f.block b).terminator.targets.foldl (fun acc s => acc ∪ (live.getD s .none).liveIn) ∅

variable (vars : LiveVars)

def visitLive (f : AmirFunc) (facts : LiveFacts) (b : BlockId) : LiveFacts × List Nat :=
  let inWorklist := facts.inWorklist.set b false
  let newOut := joinLive f facts.live b
  let new : LiveSets := ⟨vars.transfer f b newOut, newOut⟩
  if new ≠ facts.live.getD b .none then
    let (queued, inWorklist) := queueAll (f.predecessors b) inWorklist
    (⟨facts.live.set b new, inWorklist⟩, queued)
  else (⟨facts.live, inWorklist⟩, [])

def liveLimit (f : AmirFunc) : Nat :=
  f.blocks.length * vars.count f + dataflowFixpointHeadroom

def liveStart : LiveFacts :=
  ⟨List.replicate f.blocks.length .none,
    (List.range f.blocks.length).map fun b => (reversePostOrder f).contains b⟩

/-- `analyze_local_liveness` and `analyze_temp_liveness`: the sets of every block. -/
def analyzeLiveness (f : AmirFunc) : Except Diverged (List LiveSets) :=
  if vars.count f = 0 then .ok (List.replicate f.blocks.length .none)
  else
    match worklist (visitLive vars f) (liveLimit vars f) (reversePostOrder f).reverse
      (liveStart f) with
    | some facts => .ok facts.live
    | none => .error (.liveness (liveLimit vars f))

def analyzeLocalLiveness : Except Diverged (List LiveSets) :=
  analyzeLiveness localVars f

def analyzeTempLiveness : Except Diverged (List LiveSets) :=
  analyzeLiveness tempVars f

/-! ## How often the facts can change -/

/-- Blocks use declared variables only; the bit matrices of the source panic on others. -/
structure LiveVars.Declared (vars : LiveVars) (f : AmirFunc) : Prop where
  uses : ∀ b, (vars.usesDefs f b).1 ⊆ range (vars.count f)
  outside : ∀ b, f.blocks.length ≤ b → (vars.usesDefs f b).1 = ∅

section Bound

variable {vars : LiveVars} {f : AmirFunc} {facts : LiveFacts}

lemma transfer_mono (vars : LiveVars) (f : AmirFunc) (b : BlockId) {s t : Finset Nat}
    (h : s ⊆ t) : vars.transfer f b s ⊆ vars.transfer f b t :=
  union_subset_union (sdiff_subset_sdiff h (Subset.refl _)) (Subset.refl _)

lemma transfer_subset (hdeclared : vars.Declared f) (b : BlockId) {s : Finset Nat}
    (h : s ⊆ range (vars.count f)) : vars.transfer f b s ⊆ range (vars.count f) :=
  union_subset (sdiff_subset.trans h) (hdeclared.uses b)

lemma mem_joinLive {u : Nat} :
    u ∈ joinLive f live b ↔ ∃ succ, f.Edge b succ ∧ u ∈ (live.getD succ .none).liveIn := by
  have hfold : ∀ (bs : List BlockId) (s : Finset Nat),
      u ∈ bs.foldl (fun acc s => acc ∪ (live.getD s .none).liveIn) s ↔
        u ∈ s ∨ ∃ succ ∈ bs, u ∈ (live.getD succ .none).liveIn := by
    intro bs
    induction bs with
    | nil => simp
    | cons b bs ih =>
      intro s
      rw [List.foldl_cons, ih, mem_union]
      simp only [List.mem_cons, exists_eq_or_imp, or_assoc]
  unfold joinLive
  rw [hfold]
  simp [AmirFunc.Edge]

lemma joinLive_mono {live' : List LiveSets}
    (h : ∀ b, (live.getD b .none).liveIn ⊆ (live'.getD b .none).liveIn) (b : BlockId) :
    joinLive f live b ⊆ joinLive f live' b := by
  intro u hu
  obtain ⟨succ, hedge, hlive⟩ := mem_joinLive.1 hu
  exact mem_joinLive.2 ⟨succ, hedge, h succ hlive⟩

lemma joinLive_subset {u : Finset Nat} (h : ∀ b, (live.getD b .none).liveIn ⊆ u) (b : BlockId) :
    joinLive f live b ⊆ u := by
  intro v hv
  obtain ⟨succ, -, hlive⟩ := mem_joinLive.1 hv
  exact h succ hlive

/-- The facts only ever grow, and stay within the declared variables. -/
structure LiveGrows (vars : LiveVars) (f : AmirFunc) (live : List LiveSets) : Prop where
  length : live.length = f.blocks.length
  below : ∀ b, (live.getD b .none).liveOut ⊆ joinLive f live b
  inBelow : ∀ b, (live.getD b .none).liveIn ⊆ vars.transfer f b (live.getD b .none).liveOut
  declared : ∀ b, (live.getD b .none).liveIn ⊆ range (vars.count f)

/-- The rounds a block has left: one for each variable not yet live at its end, and one if its
facts have not been computed. -/
def roundsLeft (vars : LiveVars) (f : AmirFunc) (b : BlockId) (sets : LiveSets) : Nat :=
  (vars.count f - sets.liveOut.card) +
    (!decide (sets.liveIn = vars.transfer f b sets.liveOut)).toNat

/-- The blocks still to be queued. -/
def livePotential (vars : LiveVars) (f : AmirFunc) (live : List LiveSets) : Nat :=
  tablePotential (fun b sets => (f.predecessors b).length * roundsLeft vars f b sets) live

lemma length_queueAll (bs : List BlockId) (inWorklist : List Bool) :
    (queueAll bs inWorklist).1.length ≤ bs.length := by
  induction bs generalizing inWorklist with
  | nil => exact le_rfl
  | cons b bs ih =>
    rw [queueAll]
    split
    · exact Nat.le_succ_of_le (ih _)
    · exact Nat.succ_le_succ (ih _)

lemma LiveGrows.set (hdeclared : vars.Declared f) (h : LiveGrows vars f live) (b : BlockId) :
    LiveGrows vars f (live.set b ⟨vars.transfer f b (joinLive f live b), joinLive f live b⟩) := by
  have hread :=
    getD_set_cases live b ⟨vars.transfer f b (joinLive f live b), joinLive f live b⟩ .none
  -- what the other blocks see of it grows
  have hgrows : ∀ c, (live.getD c .none).liveIn ⊆ ((live.set b
      ⟨vars.transfer f b (joinLive f live b), joinLive f live b⟩).getD c .none).liveIn := by
    intro c
    rcases hread c with ⟨hc, -⟩ | ⟨rfl, -, hc⟩
    · rw [hc]
    · rw [hc]
      exact (h.inBelow c).trans (transfer_mono vars f c (h.below c))
  refine ⟨by simp [h.length], fun c => ?_, fun c => ?_, fun c => ?_⟩
  all_goals rcases hread c with ⟨hc, -⟩ | ⟨rfl, -, hc⟩ <;> rw [hc]
  · exact (h.below c).trans (joinLive_mono hgrows c)
  · exact joinLive_mono hgrows c
  · exact h.inBelow c
  · exact h.declared c
  · exact transfer_subset hdeclared c (joinLive_subset h.declared c)

lemma roundsLeft_lt (h : LiveGrows vars f live)
    (hne : (⟨vars.transfer f b (joinLive f live b), joinLive f live b⟩ : LiveSets) ≠
      live.getD b .none) :
    roundsLeft vars f b ⟨vars.transfer f b (joinLive f live b), joinLive f live b⟩ <
      roundsLeft vars f b (live.getD b .none) := by
  have hsub := h.below b
  have hcount : (joinLive f live b).card ≤ vars.count f := by
    simpa using card_le_card (joinLive_subset h.declared b)
  simp only [roundsLeft, decide_true, Bool.not_true, Bool.toNat_false]
  by_cases heq : (live.getD b .none).liveOut = joinLive f live b
  · -- the same variables are live at the end, so the facts were never computed
    have hin : (live.getD b .none).liveIn ≠
        vars.transfer f b (live.getD b .none).liveOut := by
      intro hin
      apply hne
      rw [heq] at hin
      rw [← hin, ← heq]
    rw [decide_eq_false hin, heq]
    simp
  · have hcard := card_lt_card (lt_of_le_of_ne hsub heq)
    omega

/-- Every visit is paid for by a round of the block visited. -/
lemma visitLive_pays (hdeclared : vars.Declared f) (b : BlockId)
    (h : LiveGrows vars f facts.live) : LiveGrows vars f (visitLive vars f facts b).1.live ∧
      (visitLive vars f facts b).2.length + livePotential vars f (visitLive vars f facts b).1.live ≤
        livePotential vars f facts.live := by
  simp only [visitLive]
  split
  next hne =>
    refine ⟨h.set hdeclared b, ?_⟩
    have hqueue := length_queueAll (f.predecessors b) (facts.inWorklist.set b false)
    by_cases hb : b < f.blocks.length
    · have hget : facts.live[b]? = some (facts.live.getD b .none) := by
        simp [List.getElem?_eq_getElem (h.length.symm ▸ hb)]
      have hset := tablePotential_set
        (f := fun b sets => (f.predecessors b).length * roundsLeft vars f b sets) hget
        ⟨vars.transfer f b (joinLive f facts.live b), joinLive f facts.live b⟩
      have hmul := Nat.mul_le_mul_left (f.predecessors b).length (roundsLeft_lt h hne)
      rw [Nat.succ_eq_add_one, Nat.mul_add] at hmul
      simp only [livePotential]
      omega
    · -- there is no such block, and nothing is live in it
      have hb := not_lt.1 hb
      refine absurd ?_ hne
      simp [LiveVars.transfer, hdeclared.outside b hb, joinLive, AmirFunc.block_of_length_le hb,
        AmirBasicBlock.missing, AmirTerminator.targets,
        List.getElem?_eq_none (h.length.symm ▸ hb), LiveSets.none]
  · exact ⟨h, by simp⟩

/-- The number of stored edges into blocks. -/
def predecessorCount (f : AmirFunc) : Nat :=
  ((List.range f.blocks.length).map fun b => (f.predecessors b).length).sum

lemma liveGrows_start : LiveGrows vars f (liveStart f).live := by
  have hnone (b : BlockId) : (liveStart f).live.getD b .none = .none := by
    by_cases hb : b < f.blocks.length <;> simp [liveStart, hb]
  refine ⟨by simp [liveStart], fun b => ?_, fun b => ?_, fun b => ?_⟩ <;> rw [hnone] <;>
    exact empty_subset _

lemma livePotential_start :
    livePotential vars f (liveStart f).live ≤ predecessorCount f * (vars.count f + 1) := by
  apply tablePotential_replicate_le
  intro b
  apply Nat.mul_le_mul_left
  exact Nat.add_le_add_left (Bool.toNat_le _) _

/-- Enough room for one visit of every block, and one for every edge and variable and one more
for every edge. -/
lemma liveGuard_holds (hdeclared : vars.Declared f) (hn : 0 < f.blocks.length)
    (hroom : vars.count f ≠ 0 →
      f.blocks.length + predecessorCount f * (vars.count f + 1) ≤ liveLimit vars f) :
    ∃ live, analyzeLiveness vars f = .ok live := by
  unfold analyzeLiveness
  split
  · exact ⟨_, rfl⟩
  rename_i hcount
  replace hroom := hroom hcount
  have hstart : (reversePostOrder f).length + livePotential vars f (liveStart f).live ≤ _ :=
    Nat.add_le_add (Dominators.rpo_length_le hn) livePotential_start
  have hsome : (worklist (visitLive vars f) (liveLimit vars f) (reversePostOrder f).reverse
      (liveStart f)).isSome :=
    worklist_isSome (fun facts => LiveGrows vars f facts.live)
      (fun facts => livePotential vars f facts.live) (fun _ b => visitLive_pays hdeclared b)
      liveGrows_start (by rw [List.length_reverse]; exact hstart.trans hroom)
  obtain ⟨facts, hfacts⟩ := Option.isSome_iff_exists.1 hsome
  rw [hfacts]
  exact ⟨_, rfl⟩

end Bound

end Arandu.Mir
