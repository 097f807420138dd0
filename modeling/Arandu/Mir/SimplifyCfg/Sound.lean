import Arandu.Mir.SimplifyCfg.Sweep
import Arandu.Mir.SimplifyCfg.Worklist

/-!
# CFG simplification preserves meaning

The predecessor lists are updated in place and need not be in the order a fresh computation
lists them. A block whose goto is the only way into the entry block absorbs it, and nothing is left
to run; in every other function the meaning is kept.
-/

namespace Arandu.Mir

open Arandu.Amir Arandu.Library AmirFunc

namespace SimplifyCfg

variable {f : AmirFunc}

/-! ## The outer loop -/

lemma outerLoop_succ (iters : Nat) (f : AmirFunc) (changed : Bool) :
    outerLoop (iters + 1) f changed =
      let n := f.blocks.length
      let s := localLoop (max (n * 4) 16) (List.range n) ⟨f, List.replicate n [], false⟩
      (if s.absorbed.any (!·.isEmpty) then compactMergedStatements s.func s.absorbed
        else .ok s.func).bind fun f₁ =>
      (removeUnreachableBlocks f₁).bind fun r =>
      if s.changed || r.1 then outerLoop iters r.2 true else .ok (changed, r.2) := by
  rw [outerLoop]
  simp only
  split
  · rfl
  · rfl

/-- The threads and merges of one round. -/
def roundOf (f : AmirFunc) : LocalState :=
  localLoop (max (f.blocks.length * 4) 16) (List.range f.blocks.length)
    ⟨f, List.replicate f.blocks.length [], false⟩

/-- In some round of the outer loop a block absorbs the entry block. -/
def absorbsEntry : Nat → AmirFunc → Bool
  | 0, _ => false
  | iters + 1, f => mergedAway (roundOf f).absorbed 0 ||
    match outerLoop 1 f false with
    | .ok (true, f₂) => absorbsEntry iters f₂
    | _ => false

/-- The pass absorbs the entry block of the function. -/
def entryAbsorbed (f : AmirFunc) : Bool :=
  absorbsEntry cfgSimplifyMaxOuterIters { f with cfg := computeCfgEdges f.blocks }

lemma outerLoop_ok (iters : Nat) (changed : Bool) (hshape : Shape f) :
    ∃ changed' f', outerLoop iters f changed = .ok (changed', f') ∧ Shape f' ∧
      (absorbsEntry iters f = false → Folds f f') := by
  induction iters generalizing f changed with
  | zero => exact ⟨changed, f, rfl, hshape, fun _ => .refl f⟩
  | succ iters ih =>
    rw [absorbsEntry, outerLoop_succ, outerLoop_succ]
    obtain ⟨f₁, hlocal, hshape₁, hfolds₁⟩ := local_ok hshape (max (f.blocks.length * 4) 16)
      (List.range f.blocks.length)
    obtain ⟨removed, f₂, hremove, hcase⟩ := removeUnreachableBlocks_ok hshape₁
    have hswept : Shape f₂ ∧ Folds f₁ f₂ := by
      rcases hcase with rfl | hswept
      · exact ⟨hshape₁, .refl f₂⟩
      · have hreach : ∀ x, (reachableBlocks f₁).marked x = true ↔ Reachable f₁.Edge 0 x :=
          fun _ => marked_iff_reachable hshape₁
        exact ⟨hswept.shape hreach hshape₁, hswept.folds hreach hshape₁⟩
    simp only [hlocal, hremove, Except.bind, outerLoop, Bool.or_eq_false_iff]
    split
    · obtain ⟨changed', f', hrest, hshape', hfolds'⟩ := @ih f₂ true hswept.1
      refine ⟨changed', f', hrest, hshape', fun hkept => ?_⟩
      exact ((hfolds₁ hkept.1).trans hswept.2).trans (hfolds' hkept.2)
    · exact ⟨changed, f₂, rfl, hswept.1, fun hkept => (hfolds₁ hkept.1).trans hswept.2⟩

/-- A validated function has the shape simplification relies on once its edges are
computed. -/
lemma shape_of_validate {interner : TypeInterner} (hvalid : validateAmirFunc f interner = []) :
    Shape { f with cfg := computeCfgEdges f.blocks } := by
  have hwf := wellFormed_of_validate hvalid
  exact ⟨⟨hwf.nonempty, hwf.targets, hwf.arity, hwf.stmtRange, hwf.stmtOwner⟩,
    cfgExact_of_compute rfl hwf.targets⟩

/-! ## What an observer sees -/

/-- From every input, in every environment, both functions halt with the same outcome in
the same state, trace included, or both run for ever; and the states the second one passes
through are states of the first one, in order. -/
def SameMeaning (f f' : AmirFunc) : Prop :=
  ∀ (E : Env) (st₀ : State E.host), (∀ o st, (∃ n, runN E f n (.running 0 st₀) = .halted o st) ↔
      ∃ m, runN E f' m (.running 0 st₀) = .halted o st) ∧
    ∀ m, ∃ n, m ≤ n ∧ SameState (runN E f n (.running 0 st₀)) (runN E f' m (.running 0 st₀))

lemma Folds.sameMeaning {f' : AmirFunc} (h : Folds f f') : SameMeaning f f' := by
  intro E st₀
  refine ⟨fun o st => ?_, h E st₀⟩
  refine (h E st₀).eventually_iff (P := (· = .halted o st)) (Q := (· = .halted o st)) ?_ ?_
  · intro c d hsame
    cases hsame with
    | running b b' st' => simp
    | halted o' st' => exact Iff.rfl
  · intro c hc
    rw [hc]
    rfl

/-- The stored edges are the computed ones; predecessors may come in another order. -/
structure CfgCurrent (f : AmirFunc) : Prop where
  successors : ∀ b, f.successors b = (computeCfgEdges f.blocks).successors.getD b []
  predecessors : ∀ b, (f.predecessors b).Perm ((computeCfgEdges f.blocks).predecessors.getD b [])

lemma Shape.cfgCurrent (h : Shape f) : CfgCurrent f := by
  have hfresh : CfgExact { f with cfg := computeCfgEdges f.blocks } :=
    cfgExact_of_compute rfl h.targets
  refine ⟨fun b => ?_, fun b => ?_⟩
  · exact (h.exact.succs b).trans (hfresh.succs b).symm
  · refine List.perm_iff_count.2 fun m => ?_
    exact (h.exact.preds m b).trans (hfresh.preds m b).symm

end SimplifyCfg

open SimplifyCfg

/-- `simplify_cfg` succeeds on every validated function and leaves its current edges; it keeps the
meaning unless it absorbs the entry block. -/
theorem simplifyCfg_preserves {f : AmirFunc} {interner : TypeInterner}
    (hvalid : validateAmirFunc f interner = []) :
    ∃ changed f', simplifyCfg f = .ok (changed, f') ∧ CfgCurrent f' ∧
      (entryAbsorbed f = false → SameMeaning f f') := by
  obtain ⟨changed, f', hok, hshape, hfolds⟩ :=
    outerLoop_ok cfgSimplifyMaxOuterIters false (shape_of_validate hvalid)
  refine ⟨changed, f', hok, hshape.cfgCurrent, fun hkept => ?_⟩
  -- the run does not look at the stored edges
  have hsame : Folds f { f with cfg := computeCfgEdges f.blocks } :=
    folds_of_same rfl (fun _ => rfl) (fun _ => rfl) (fun _ => rfl)
  exact (hsame.trans (hfolds hkept)).sameMeaning

namespace SimplifyCfg

/-! ## What is not promised -/

def cfgInterner : TypeInterner := ⟨[.primitive .int, .primitive .bool]⟩

/-- `if c { call() }; call()`, with the join in an empty block. -/
def diamond : AmirFunc :=
  let blocks : List AmirBasicBlock :=
    [⟨0, .empty, .empty, .branch (.copy 1) 1 [] 2 []⟩, ⟨1, .empty, ⟨0, 1⟩, .goto 2 []⟩,
     ⟨2, .empty, .empty, .goto 3 []⟩,
     ⟨3, .empty, ⟨1, 1⟩, .return⟩]
  { symbol := 0, returnType := 0, receiver := none, params := [1], locals := [⟨0, 0, false, none⟩]
    temps := [⟨0, 0, true, false⟩, ⟨1, 1, true, false⟩], blocks := blocks, blockParams := []
    stmts := [.storageLive 0, .storageDead 0], cfg := computeCfgEdges blocks }

/-- `loop { if !c { return } }`, with the loop header as the entry block. -/
def entryLoop : AmirFunc :=
  let blocks : List AmirBasicBlock :=
    [⟨0, .empty, .empty, .branch (.copy 1) 1 [] 2 []⟩, ⟨1, .empty, .empty, .goto 0 []⟩,
     ⟨2, .empty, .empty, .return⟩]
  { symbol := 0, returnType := 0, receiver := none, params := [1], locals := [⟨0, 0, false, none⟩]
    temps := [⟨0, 0, true, false⟩, ⟨1, 1, true, false⟩], blocks := blocks, blockParams := []
    stmts := [], cfg := computeCfgEdges blocks }

def cfgEnv : Env where
  interner := cfgInterner
  pool := ⟨[]⟩
  host := Host.lengths
  frame := fun _ => false

def branchCall (c : Bool) : State Host.lengths :=
  .ofInputs (h := Host.lengths) (0 : Int) () [(1, .bool c)]

end SimplifyCfg

/-- The simplified diamond lists the predecessors of its last block in another order than
`compute_cfg_edges`; and the entry loop, which returns when `c` is false, becomes a single
`Unreachable`. -/
theorem simplifyCfg_reorders_and_absorbs : (validateAmirFunc diamond cfgInterner = [] ∧
      ∃ f', simplifyCfg diamond = .ok (true, f') ∧ f'.predecessors 3 = [2, 1] ∧
        (computeCfgEdges f'.blocks).predecessors.getD 3 [] = [1, 2]) ∧
    (validateAmirFunc entryLoop cfgInterner = [] ∧ entryAbsorbed entryLoop = true ∧
      ∃ f' st st', simplifyCfg entryLoop = .ok (true, f') ∧
        runN cfgEnv entryLoop 2 (.running 0 (branchCall false)) = .halted (.returned none) st ∧
        runN cfgEnv f' 2 (.running 0 (branchCall false)) = .halted .unreachable st') :=
  ⟨⟨by decide, _, rfl, rfl, rfl⟩, ⟨by decide, by decide, _, _, _, rfl, rfl, rfl⟩⟩

/-- `loop { if c { continue }; if c { continue }; return }`: two gotos lead back to the entry. -/
def SimplifyCfg.twoLatches : AmirFunc :=
  let blocks : List AmirBasicBlock :=
    [⟨0, .empty, .empty, .branch (.copy 1) 1 [] 2 []⟩, ⟨1, .empty, .empty, .goto 0 []⟩,
     ⟨2, .empty, .empty, .branch (.copy 1) 3 [] 4 []⟩, ⟨3, .empty, .empty, .goto 0 []⟩,
     ⟨4, .empty, .empty, .return⟩]
  { entryLoop with blocks := blocks, cfg := computeCfgEdges blocks }

/-- `bb0: goto bb1; bb1: goto bb0`. -/
def SimplifyCfg.gotoCycle : AmirFunc :=
  let blocks : List AmirBasicBlock :=
    [⟨0, .empty, .empty, .goto 1 []⟩, ⟨1, .empty, .empty, .goto 0 []⟩]
  { entryLoop with blocks := blocks, cfg := computeCfgEdges blocks }

/-- Gotos lead back to the entry block of both functions, and both keep their meaning. -/
theorem simplifyCfg_preserves_loops :
    (∃ changed f', simplifyCfg twoLatches = .ok (changed, f') ∧ CfgCurrent f' ∧
        SameMeaning twoLatches f') ∧
      ∃ changed f', simplifyCfg gotoCycle = .ok (changed, f') ∧ CfgCurrent f' ∧
        SameMeaning gotoCycle f' := by
  have hlatches : validateAmirFunc twoLatches cfgInterner = [] ∧
      entryAbsorbed twoLatches = false := by decide
  have hcycle : validateAmirFunc gotoCycle cfgInterner = [] ∧ entryAbsorbed gotoCycle = false := by
    decide
  obtain ⟨changed, f', hok, hcfg, hsame⟩ := simplifyCfg_preserves hlatches.1
  obtain ⟨changed₁, f₁, hok₁, hcfg₁, hsame₁⟩ := simplifyCfg_preserves hcycle.1
  exact ⟨⟨changed, f', hok, hcfg, hsame hlatches.2⟩, changed₁, f₁, hok₁, hcfg₁, hsame₁ hcycle.2⟩

end Arandu.Mir
