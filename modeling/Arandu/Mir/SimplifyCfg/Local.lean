import Arandu.Amir.Validate
import Arandu.Mir.SimplifyCfg.Edges
import Arandu.Mir.SimplifyCfg.Folding

/-!
# Threading and merging fold block steps

The invariant of the worklist has two parts. `Shape` collects what holds of the function
itself: existing targets, matching argument counts, statement ranges, exact edge lists.
`Absorbs` says that the blocks merged away are cut off: they end in `Unreachable`, nothing
jumps to them, and each was absorbed once.

While the worklist runs, the meaning of function and `absorbed` together is that of any
function with the merges carried out (`Compacted`). One visit of a block leads from one
such function to the next, and the second one folds the first.

## The entry block

Merging takes the terminator away from the block it absorbs. The pass does not exclude the entry
block, and a function whose entry was absorbed no longer runs: a merge folds only if it absorbs
another block.
-/

namespace Arandu.Mir.SimplifyCfg

open Arandu.Amir Arandu.Library List AmirTerminator AmirFunc

variable {b m x : BlockId}

/-! ## The invariant -/

/-- What simplification relies on and keeps. -/
structure Shape (f : AmirFunc) : Prop extends BlocksFit f where
  exact : f.CfgExact

/-- Some block absorbed `x`. -/
def Merged (absorbed : Absorbed) (x : BlockId) : Prop := ∃ b, x ∈ absorbed.getD b []

structure Absorbs (f : AmirFunc) (absorbed : Absorbed) : Prop where
  length : absorbed.length = f.blocks.length
  nodup : ∀ b, (absorbed.getD b []).Nodup
  owner : ∀ b b' x, x ∈ absorbed.getD b [] → x ∈ absorbed.getD b' [] → b = b'
  range : ∀ x, Merged absorbed x → x < f.blocks.length
  leaf : ∀ x, Merged absorbed x → absorbed.getD x [] = []
  ended : ∀ x, Merged absorbed x → (f.block x).terminator = .unreachable
  cut : ∀ x, Merged absorbed x → ∀ b, ¬ f.Edge b x

open Classical in
noncomputable def mergedStmts (f : AmirFunc) (absorbed : Absorbed) (b : BlockId) : List AmirStmt :=
  if Merged absorbed b then [] else (b :: absorbed.getD b []).flatMap f.blockStmts

/-- A function with the merges carried out. -/
structure Compacted (f : AmirFunc) (absorbed : Absorbed) (g : AmirFunc) : Prop where
  temps : g.temps = f.temps
  params : ∀ b, g.blockParamsOf b = f.blockParamsOf b
  terminator : ∀ b, (g.block b).terminator = (f.block b).terminator
  stmts : ∀ b, g.blockStmts b = mergedStmts f absorbed b

section

variable {f g : AmirFunc} {absorbed : Absorbed} {t c : BlockId}

lemma mergedStmts_of_merged (h : Merged absorbed b) : mergedStmts f absorbed b = [] := if_pos h

lemma mergedStmts_of_not_merged (h : ¬ Merged absorbed b) :
    mergedStmts f absorbed b = (b :: absorbed.getD b []).flatMap f.blockStmts := if_neg h

lemma jump_nil {E : Env} (h : g.blockParamsOf b = []) (st : State E.host) :
    jump E g st b [] = .running b st := by
  simp only [jump, h]
  rfl

lemma Shape.goto_params (hshape : Shape f)
    (hterm : (f.block m).terminator = .goto t []) : f.blockParamsOf t = [] := by
  have := hshape.arity m t [] (by simp [hterm, edges])
  exact eq_nil_of_length_eq_zero this.symm

lemma edge_goto {args : List AmirOperand}
    (hterm : (f.block m).terminator = .goto t args) : f.Edge m t := by
  simp [Edge, hterm, targets]

/-! ## Chains of empty blocks -/

/-- Blocks that only pass control on. -/
inductive Chain (f : AmirFunc) (absorbed : Absorbed) : BlockId → BlockId → Prop
  | refl (b : BlockId) : Chain f absorbed b b
  | hop {b t c : BlockId} (hstmts : (f.block b).statements.len = 0)
      (habsorbed : absorbed.getD b [] = []) (hterm : (f.block b).terminator = .goto t [])
      (hrest : Chain f absorbed t c) : Chain f absorbed b c

lemma followChain_chain {original : BlockId} {fuel : Nat} :
    followChain f absorbed original fuel b = original ∨
      Chain f absorbed b (followChain f absorbed original fuel b) := by
  induction fuel generalizing b with
  | zero => exact .inl rfl
  | succ fuel ih =>
    unfold followChain
    split
    · exact .inr (.refl b)
    next hempty =>
      simp only [not_or, not_not] at hempty
      split
      next target hterm =>
        rcases @ih target with h | h
        · exact .inl h
        · exact .inr (.hop hempty.1 hempty.2.1 hterm h)
      · exact .inr (.refl b)

lemma Chain.last (h : Chain f absorbed b c) : b = c ∨ ∃ m, (f.block m).terminator = .goto c [] := by
  induction h with
  | refl b => exact .inl rfl
  | @hop b t c _ _ hterm _ ih =>
    rcases ih with rfl | hlast
    · exact .inr ⟨b, hterm⟩
    · exact .inr hlast

lemma Chain.run (hshape : Shape f) (hg : Compacted f absorbed g) (h : Chain f absorbed b c) :
    ∃ k, ∀ (E : Env) (st : State E.host), (step E g)^[k] (.running b st) = .running c st := by
  induction h with
  | refl b => exact ⟨0, fun _ _ => rfl⟩
  | @hop b t c hstmts habsorbed hterm _ ih =>
    obtain ⟨k, hk⟩ := ih
    refine ⟨k + 1, fun E st => ?_⟩
    have hnone : g.blockStmts b = [] := by
      rw [hg.stmts]
      by_cases hmerged : Merged absorbed b
      · exact mergedStmts_of_merged hmerged
      · rw [mergedStmts_of_not_merged hmerged, habsorbed]
        simp [blockStmts, blockStmtIds, DenseRange.iterIds, hstmts]
    have hjump : step E g (.running b st) = .running t st := by
      simp only [step, hnone, hg.terminator, hterm]
      exact jump_nil ((hg.params t).trans (hshape.goto_params hterm)) st
    rw [Function.iterate_succ_apply, hjump]
    exact hk E st

end

/-! ## Threading -/

section Threading

variable {f : AmirFunc} {absorbed : Absorbed} {bid target dest : BlockId}

lemma threadBlock_cases (f : AmirFunc) (bid : BlockId) (absorbed : Absorbed) :
    threadBlock f bid absorbed = (false, f) ∨
      ∃ target dest, (f.block bid).terminator = .goto target [] ∧ dest ≠ target ∧
        Chain f absorbed target dest ∧
        threadBlock f bid absorbed = (true, threaded f bid target dest) := by
  unfold threadBlock
  split
  next target hterm =>
    simp only
    split
    · exact .inl rfl
    next hne =>
      refine .inr ⟨target, _, hterm, hne, ?_, rfl⟩
      exact (followChain_chain).resolve_left hne
  · exact .inl rfl

/-- Everything a threading step is given. -/
structure Threads (f : AmirFunc) (absorbed : Absorbed) (bid target dest : BlockId) : Prop where
  lt : bid < f.blocks.length
  term : (f.block bid).terminator = .goto target []
  ne : dest ≠ target
  chain : Chain f absorbed target dest

variable (h : Threads f absorbed bid target dest)
include h

lemma Threads.last : ∃ m, (f.block m).terminator = .goto dest [] :=
  h.chain.last.resolve_left fun heq => h.ne heq.symm

variable (x)

lemma Threads.terminator : ((threaded f bid target dest).block x).terminator =
      if x = bid then .goto dest [] else (f.block x).terminator :=
  terminator_setTerminator h.lt _ x

lemma Threads.blockParamsOf : (threaded f bid target dest).blockParamsOf x = f.blockParamsOf x := by
  have hparams : ((threaded f bid target dest).block x).params = (f.block x).params :=
    params_setTerminator h.lt _ x
  simp only [AmirFunc.blockParamsOf, hparams]
  rfl

lemma Threads.blockStmtIds : (threaded f bid target dest).blockStmtIds x = f.blockStmtIds x :=
  congrArg DenseRange.iterIds (statements_setTerminator h.lt _ x)

lemma Threads.mergedStmts :
    mergedStmts (threaded f bid target dest) absorbed x = mergedStmts f absorbed x := by
  have hstmts : (threaded f bid target dest).blockStmts = f.blockStmts := by
    funext y
    simp only [blockStmts, h.blockStmtIds]
    rfl
  simp only [SimplifyCfg.mergedStmts, hstmts]

variable {x}

lemma Threads.edge {n : BlockId} :
    (threaded f bid target dest).Edge m n ↔ (m = bid ∧ n = dest) ∨ (m ≠ bid ∧ f.Edge m n) := by
  simp only [Edge, h.terminator]
  by_cases hm : m = bid
  · simp [hm, targets]
  · simp [hm]

lemma Threads.shape (hshape : Shape f) : Shape (threaded f bid target dest) := by
  obtain ⟨last, hlast⟩ := h.last
  have hdest : dest < f.blocks.length := hshape.targets last dest (edge_goto hlast)
  have hlength : (threaded f bid target dest).blocks.length = f.blocks.length :=
    setTerminator_length _ _
  refine ⟨⟨hlength ▸ hshape.nonempty, ?_, ?_, ?_, ?_⟩, ?_⟩
  · intro m n hedge
    rw [hlength]
    rcases h.edge.1 hedge with ⟨-, rfl⟩ | ⟨-, hold⟩
    · exact hdest
    · exact hshape.targets m n hold
  · intro m n args hmem
    rw [h.blockParamsOf]
    rw [h.terminator] at hmem
    split at hmem
    · simp only [edges, mem_singleton, Prod.mk.injEq] at hmem
      rw [hmem.1, hmem.2, hshape.goto_params hlast]
      rfl
    · exact hshape.arity m n args hmem
  · intro b hb
    have hstatements : ((threaded f bid target dest).block b).statements =
        (f.block b).statements := statements_setTerminator h.lt _ b
    rw [hstatements]
    exact hshape.stmtRange b (hlength ▸ hb)
  · intro b b' k hk hk'
    rw [h.blockStmtIds] at hk hk'
    exact hshape.stmtOwner b b' k hk hk'
  · exact cfgExact_threaded hshape.exact h.lt (hshape.targets bid target (edge_goto h.term))
      hdest h.term h.ne

lemma Threads.absorbs (habs : Absorbs f absorbed) :
    Absorbs (threaded f bid target dest) absorbed := by
  obtain ⟨last, hlast⟩ := h.last
  have hlength : (threaded f bid target dest).blocks.length = f.blocks.length :=
    setTerminator_length _ _
  refine ⟨hlength ▸ habs.length, habs.nodup, habs.owner, ?_, habs.leaf, ?_, ?_⟩
  · exact fun x hx => hlength ▸ habs.range x hx
  · intro x hx
    have hne : x ≠ bid := by
      rintro rfl
      have := habs.ended x hx
      rw [h.term] at this
      cases this
    rw [h.terminator, if_neg hne]
    exact habs.ended x hx
  · intro x hx b hedge
    rcases h.edge.1 hedge with ⟨-, rfl⟩ | ⟨-, hold⟩
    · exact habs.cut x hx last (edge_goto hlast)
    · exact habs.cut x hx b hold

lemma Threads.folds (hshape : Shape f) {g g' : AmirFunc} (hg : Compacted f absorbed g)
    (hg' : Compacted (threaded f bid target dest) absorbed g') : Folds g g' := by
  have htemps : g'.temps = g.temps := hg'.temps.trans hg.temps.symm
  have hparams : ∀ b, g'.blockParamsOf b = g.blockParamsOf b := fun b => by
    rw [hg'.params, hg.params, h.blockParamsOf]
  have hstmts : ∀ b, g'.blockStmts b = g.blockStmts b := fun b => by
    rw [hg'.stmts, hg.stmts, h.mergedStmts]
  obtain ⟨last, hlast⟩ := h.last
  obtain ⟨k, hk⟩ := h.chain.run hshape hg
  refine folds_of_blocks id (fun _ => True) rfl trivial fun E b st _ => ?_
  by_cases hb : b = bid
  · subst hb
    refine ⟨k + 1, by omega, ?_⟩
    have hterm : (g.block b).terminator = .goto target [] := by rw [hg.terminator, h.term]
    have hterm' : (g'.block b).terminator = .goto dest [] := by
      rw [hg'.terminator, h.terminator, if_pos rfl]
    have htarget : g.blockParamsOf target = [] :=
      (hg.params target).trans (hshape.goto_params h.term)
    have hdest : g'.blockParamsOf dest = [] := by
      rw [hparams, hg.params, hshape.goto_params hlast]
    rw [Function.iterate_succ_apply]
    simp only [step, id, hstmts, runStmts_congr htemps, hterm, hterm', execTerminator]
    cases runStmts E g (g.blockStmts b) st with
    | error e =>
      rw [show (step E g)^[k] (.halted (.stopped e.1) e.2) = .halted (.stopped e.1) e.2 from
        runN_halted k _ _]
      exact .halted _ _
    | ok st' =>
      simp only [jump_nil htarget, jump_nil hdest, hk]
      exact .running dest st' trivial
  · refine ⟨1, Nat.le_refl 1, ?_⟩
    refine step_follows (fun _ => none) htemps (hstmts b) ?_
      (fun t _ => ⟨rfl, trivial, hparams t⟩) st
    rw [remapTerminator_none, hg'.terminator, h.terminator, if_neg hb]
    exact (hg.terminator b).symm

end Threading

/-! ## Merging -/

section Merging

variable {f : AmirFunc} {absorbed : Absorbed} {into src : BlockId}

/-- Everything a merge is given. -/
structure Merges (f : AmirFunc) (into src : BlockId) : Prop where
  into_lt : into < f.blocks.length
  src_lt : src < f.blocks.length
  ne : into ≠ src
  term : (f.block into).terminator = .goto src []
  pred : f.predecessors src = [into]
  params : f.blockParamsOf src = []

lemma mergeBlockCandidate_cases (hexact : f.CfgExact) {bid : BlockId}
    (hbid : bid < f.blocks.length) (absorbed : Absorbed) :
    mergeBlockCandidate f bid absorbed = none ∨ ∃ src, Merges f bid src ∧
        mergeBlockCandidate f bid absorbed = some (mergeTwoBlocks f bid src absorbed) := by
  unfold mergeBlockCandidate
  split
  next target src hterm hsucc =>
    split
    · exact .inl rfl
    split
    · exact .inl rfl
    split
    · exact .inl rfl
    next hrange hpred hparams =>
    simp only [not_or, not_le, not_not] at hrange hpred hparams
    have htarget : target = src := by
      have := hexact.succs bid
      rw [hsucc, hterm] at this
      simpa [targets] using this.symm
    exact .inr ⟨src, ⟨hbid, hrange.1, Ne.symm hrange.2, htarget ▸ hterm, hpred, hparams⟩, rfl⟩
  · exact .inl rfl

lemma length_mergeTwoBlocks (absorbed : Absorbed) :
    (mergeTwoBlocks f into src absorbed).1.blocks.length = f.blocks.length := by
  simp [mergeTwoBlocks]

section

variable (h : Merges f into src)
include h

section

variable (absorbed : Absorbed) (x : BlockId)

lemma Merges.terminator : ((mergeTwoBlocks f into src absorbed).1.block x).terminator =
      if x = into then (f.block src).terminator
      else if x = src then .unreachable else (f.block x).terminator :=
  mergeTwoBlocks_terminator h.into_lt h.src_lt absorbed x

lemma Merges.statements :
    ((mergeTwoBlocks f into src absorbed).1.block x).statements = (f.block x).statements := by
  have houter := statements_setTerminator (f := setTerminator f src .unreachable)
    (by simpa using h.into_lt) (f.block src).terminator x
  rw [statements_setTerminator h.src_lt] at houter
  exact houter

lemma Merges.blockParamsOf :
    (mergeTwoBlocks f into src absorbed).1.blockParamsOf x = f.blockParamsOf x := by
  have houter := params_setTerminator (f := setTerminator f src .unreachable)
    (by simpa using h.into_lt) (f.block src).terminator x
  rw [params_setTerminator h.src_lt] at houter
  have hparams : ((mergeTwoBlocks f into src absorbed).1.block x).params = (f.block x).params :=
    houter
  simp only [AmirFunc.blockParamsOf, hparams]
  rfl

end

lemma Merges.blockStmts (absorbed : Absorbed) :
    (mergeTwoBlocks f into src absorbed).1.blockStmts = f.blockStmts := by
  funext x
  simp only [AmirFunc.blockStmts, AmirFunc.blockStmtIds, h.statements]
  rfl

lemma Merges.edge_src (hexact : f.CfgExact) (hedge : f.Edge m src) : m = into := by
  have hcount := hexact.preds m src
  rw [h.pred] at hcount
  by_contra hne
  have hzero : (f.block m).terminator.targets.count src = 0 := by
    rw [← hcount]
    simp [Ne.symm hne]
  exact count_eq_zero.1 hzero hedge

lemma Merges.edge {n : BlockId} : (mergeTwoBlocks f into src absorbed).1.Edge m n ↔
      (m = into ∧ f.Edge src n) ∨ (m ≠ into ∧ m ≠ src ∧ f.Edge m n) := by
  simp only [Edge, h.terminator]
  by_cases hm : m = into
  · simp [hm]
  · by_cases hs : m = src
    · simp [hs, Ne.symm h.ne, targets]
    · simp [hm, hs]

lemma Merges.shape (hshape : Shape f) : Shape (mergeTwoBlocks f into src absorbed).1 := by
  refine ⟨⟨(length_mergeTwoBlocks absorbed).trans_gt hshape.nonempty, ?_, ?_, ?_, ?_⟩, ?_⟩
  · intro m n hedge
    rw [length_mergeTwoBlocks]
    rcases h.edge.1 hedge with ⟨-, hold⟩ | ⟨-, -, hold⟩
    · exact hshape.targets src n hold
    · exact hshape.targets m n hold
  · intro m n args hmem
    rw [h.blockParamsOf]
    rw [h.terminator] at hmem
    split at hmem
    · exact hshape.arity src n args hmem
    split at hmem
    · cases hmem
    · exact hshape.arity m n args hmem
  · intro b hb
    rw [h.statements]
    exact hshape.stmtRange b (length_mergeTwoBlocks absorbed ▸ hb)
  · intro b b' k hk hk'
    simp only [blockStmtIds, h.statements] at hk hk'
    exact hshape.stmtOwner b b' k hk hk'
  · exact cfgExact_mergeTwoBlocks hshape.exact hshape.targets h.into_lt h.src_lt h.ne h.term
      h.pred absorbed

end

/-! ### Who absorbed whom -/

section

variable (h : Merges f into src)
include h

section

variable (habs : Absorbs f absorbed)
include habs

lemma Merges.getD_absorbed (b : BlockId) : (mergeTwoBlocks f into src absorbed).2.getD b [] =
      if b = into then absorbed.getD into [] ++ src :: absorbed.getD src []
      else if b = src then [] else absorbed.getD b [] := by
  have hil : into < absorbed.length := habs.length ▸ h.into_lt
  have hsl : src < absorbed.length := habs.length ▸ h.src_lt
  simp only [mergeTwoBlocks]
  by_cases hbi : b = into
  · subst hbi
    simp [hil, Ne.symm h.ne]
  · by_cases hbs : b = src
    · subst hbs
      simp [hsl, hbi, h.ne]
    · simp [hbi, hbs, Ne.symm hbi, Ne.symm hbs]

lemma Merges.src_not_merged : ¬ Merged absorbed src :=
  fun hm => habs.cut src hm into (edge_goto h.term)

lemma Merges.into_not_merged : ¬ Merged absorbed into := by
  intro hm
  have := habs.ended into hm
  rw [h.term] at this
  cases this

lemma Merges.merged :
    Merged (mergeTwoBlocks f into src absorbed).2 x ↔ x = src ∨ Merged absorbed x := by
  constructor
  · rintro ⟨b, hb⟩
    rw [h.getD_absorbed habs] at hb
    split at hb
    · rcases mem_append.1 hb with hb | hb
      · exact .inr ⟨into, hb⟩
      · rcases mem_cons.1 hb with rfl | hb
        · exact .inl rfl
        · exact .inr ⟨src, hb⟩
    split at hb
    · cases hb
    · exact .inr ⟨b, hb⟩
  · rintro (rfl | ⟨b, hb⟩)
    · exact ⟨into, by rw [h.getD_absorbed habs]; simp⟩
    · by_cases hbi : b = into
      · subst hbi
        exact ⟨b, by rw [h.getD_absorbed habs, if_pos rfl]; exact mem_append_left _ hb⟩
      · by_cases hbs : b = src
        · subst hbs
          refine ⟨into, ?_⟩
          rw [h.getD_absorbed habs, if_pos rfl]
          exact mem_append_right _ (mem_cons_of_mem _ hb)
        · exact ⟨b, by rw [h.getD_absorbed habs, if_neg hbi, if_neg hbs]; exact hb⟩

end

lemma Merges.absorbs (hshape : Shape f) (habs : Absorbs f absorbed) :
    Absorbs (mergeTwoBlocks f into src absorbed).1 (mergeTwoBlocks f into src absorbed).2 := by
  have hsrc := h.src_not_merged habs
  have hnone : ∀ b, src ∉ absorbed.getD b [] := fun b hb => hsrc ⟨b, hb⟩
  have hother {x} (hx : Merged absorbed x) : x ≠ into ∧ x ≠ src :=
    ⟨fun heq => h.into_not_merged habs (heq ▸ hx), fun heq => hsrc (heq ▸ hx)⟩
  have hold : ∀ {x b}, x ∈ (mergeTwoBlocks f into src absorbed).2.getD b [] →
      (x = src ∧ b = into) ∨ (x ∈ absorbed.getD b [] ∧ b ≠ src) ∨
        (x ∈ absorbed.getD src [] ∧ b = into) := by
    intro x b hx
    rw [h.getD_absorbed habs] at hx
    split at hx
    next hbi =>
      rcases mem_append.1 hx with hx | hx
      · exact .inr (.inl ⟨hbi ▸ hx, hbi ▸ h.ne⟩)
      · rcases mem_cons.1 hx with hx | hx
        · exact .inl ⟨hx, hbi⟩
        · exact .inr (.inr ⟨hx, hbi⟩)
    split at hx
    · cases hx
    next hbs => exact .inr (.inl ⟨hx, hbs⟩)
  refine ⟨?_, ?_, ?_, ?_, ?_, ?_, ?_⟩
  · simp [mergeTwoBlocks, habs.length]
  · intro b
    rw [h.getD_absorbed habs]
    split
    · refine nodup_append.2 ⟨habs.nodup into, nodup_cons.2 ⟨hnone src, habs.nodup src⟩, ?_⟩
      intro x hx y hy hxy
      subst hxy
      rcases mem_cons.1 hy with rfl | hy
      · exact hnone into hx
      · exact h.ne (habs.owner into src x hx hy)
    split
    · exact nodup_nil
    · exact habs.nodup b
  · intro b b' x hx hx'
    rcases hold hx with ⟨hxs, hb⟩ | ⟨hxb, hb⟩ | ⟨hxb, hb⟩ <;>
      rcases hold hx' with ⟨hxs', hb'⟩ | ⟨hxb', hb'⟩ | ⟨hxb', hb'⟩
    · exact hb.trans hb'.symm
    · exact absurd (hxs ▸ hxb') (hnone b')
    · exact hb.trans hb'.symm
    · exact absurd (hxs' ▸ hxb) (hnone b)
    · exact habs.owner b b' x hxb hxb'
    · exact absurd (habs.owner b src x hxb hxb') hb
    · exact hb.trans hb'.symm
    · exact absurd (habs.owner src b' x hxb hxb').symm hb'
    · exact hb.trans hb'.symm
  · intro x hx
    rw [length_mergeTwoBlocks]
    rcases (h.merged habs).1 hx with rfl | hx
    · exact h.src_lt
    · exact habs.range x hx
  · intro x hx
    rw [h.getD_absorbed habs]
    rcases (h.merged habs).1 hx with rfl | hx
    · rw [if_neg (Ne.symm h.ne), if_pos rfl]
    · rw [if_neg (hother hx).1, if_neg (hother hx).2]
      exact habs.leaf x hx
  · intro x hx
    rw [h.terminator]
    rcases (h.merged habs).1 hx with rfl | hx
    · rw [if_neg (Ne.symm h.ne), if_pos rfl]
    · rw [if_neg (hother hx).1, if_neg (hother hx).2]
      exact habs.ended x hx
  · intro x hx b hedge
    rcases (h.merged habs).1 hx with rfl | hx
    · rcases h.edge.1 hedge with ⟨-, hself⟩ | ⟨hbi, -, hedge⟩
      · exact h.ne (h.edge_src hshape.exact hself).symm
      · exact hbi (h.edge_src hshape.exact hedge)
    · rcases h.edge.1 hedge with ⟨-, hold⟩ | ⟨-, -, hold⟩
      · exact habs.cut x hx src hold
      · exact habs.cut x hx b hold

end

/-! ### The merged block runs both -/

lemma Merges.mergedStmts (h : Merges f into src) (habs : Absorbs f absorbed) (b : BlockId) :
    mergedStmts (mergeTwoBlocks f into src absorbed).1 (mergeTwoBlocks f into src absorbed).2 b =
      if b = into then mergedStmts f absorbed into ++ mergedStmts f absorbed src
      else if b = src then [] else mergedStmts f absorbed b := by
  by_cases hbi : b = into
  · subst hbi
    have hnot : ¬ Merged (mergeTwoBlocks f b src absorbed).2 b := by
      rw [h.merged habs]
      exact fun hor => hor.elim h.ne (h.into_not_merged habs)
    rw [mergedStmts_of_not_merged hnot, mergedStmts_of_not_merged (h.into_not_merged habs),
      mergedStmts_of_not_merged (h.src_not_merged habs), h.getD_absorbed habs, h.blockStmts]
    simp
  · by_cases hbs : b = src
    · subst hbs
      rw [if_neg hbi, if_pos rfl]
      exact mergedStmts_of_merged ((h.merged habs).2 (.inl rfl))
    · rw [if_neg hbi, if_neg hbs]
      by_cases hm : Merged absorbed b
      · rw [mergedStmts_of_merged hm, mergedStmts_of_merged ((h.merged habs).2 (.inr hm))]
      have hnot : ¬ Merged (mergeTwoBlocks f into src absorbed).2 b := by
        rw [h.merged habs]
        exact fun hor => hor.elim hbs hm
      rw [mergedStmts_of_not_merged hnot, mergedStmts_of_not_merged hm, h.getD_absorbed habs,
        if_neg hbi, if_neg hbs, h.blockStmts]

/-- The merged block runs the statements of both; the run never starts in `src`. -/
lemma Merges.folds (h : Merges f into src) (hshape : Shape f) (habs : Absorbs f absorbed)
    (hsrc₀ : src ≠ 0) {g g' : AmirFunc} (hg : Compacted f absorbed g)
    (hg' : Compacted (mergeTwoBlocks f into src absorbed).1
      (mergeTwoBlocks f into src absorbed).2 g') : Folds g g' := by
  have htemps : g'.temps = g.temps := hg'.temps.trans hg.temps.symm
  have hparams : ∀ b, g'.blockParamsOf b = g.blockParamsOf b := fun b => by
    rw [hg'.params, hg.params, h.blockParamsOf]
  -- nothing but the merged goto jumps to `src`
  have hlive : ∀ m, m ≠ into → ∀ t ∈ (f.block m).terminator.targets, t ≠ src :=
    fun m hm t ht heq => hm (h.edge_src hshape.exact (heq ▸ ht))
  have hrenumber : ∀ t, t ≠ src →
      Renumbers g g' id (fun b => b ≠ src) (fun _ => none) t := fun t ht => ⟨rfl, ht, hparams t⟩
  refine folds_of_blocks id (fun b => b ≠ src) rfl hsrc₀.symm ?_
  intro E b st hb
  by_cases hbi : b = into
  · subst hbi
    refine ⟨2, by omega, ?_⟩
    have hterm : (g.block b).terminator = .goto src [] := by rw [hg.terminator, h.term]
    have hterm' : (g'.block b).terminator = (g.block src).terminator := by
      rw [hg'.terminator, h.terminator, if_pos rfl, hg.terminator]
    have hstmts' : g'.blockStmts b = g.blockStmts b ++ g.blockStmts src := by
      rw [hg'.stmts, h.mergedStmts habs, if_pos rfl, hg.stmts, hg.stmts]
    have hsrc : g.blockParamsOf src = [] := (hg.params src).trans h.params
    rw [Function.iterate_succ_apply]
    simp only [step, id, hstmts', hterm, hterm', runStmts_congr htemps, runStmts_append,
      execTerminator]
    cases runStmts E g (g.blockStmts b) st with
    | error e => exact .halted _ _
    | ok st₁ =>
      simp only [jump_nil hsrc]
      rw [show (Except.ok st₁ >>= runStmts E g (g.blockStmts src)) =
        runStmts E g (g.blockStmts src) st₁ from rfl]
      change Follows id (fun b => b ≠ src) (step E g (.running src st₁)) _
      simp only [step]
      cases runStmts E g (g.blockStmts src) st₁ with
      | error e => exact .halted _ _
      | ok st₂ =>
        have hfollows := execTerminator_follows htemps
            (fun t ht => hrenumber t (hlive src (Ne.symm h.ne) t (hg.terminator src ▸ ht))) st₂
        rw [remapTerminator_none] at hfollows
        exact hfollows
  · refine ⟨1, Nat.le_refl 1, ?_⟩
    refine step_follows (fun _ => none) htemps ?_ ?_ ?_ st
    · rw [hg'.stmts, h.mergedStmts habs, if_neg hbi, if_neg hb, id, hg.stmts]
    · rw [remapTerminator_none, hg'.terminator, h.terminator, if_neg hbi, if_neg hb]
      exact (hg.terminator b).symm
    · intro t ht
      exact hrenumber t (hlive b hbi t (hg.terminator b ▸ ht))

end Merging

end Arandu.Mir.SimplifyCfg
