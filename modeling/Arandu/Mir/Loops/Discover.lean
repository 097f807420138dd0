import Arandu.Amir.Dominators
import Arandu.Amir.Strict
import Arandu.Library.StackClosure

/-!
# Natural loops

`discoverLoops` finds the natural loops with a unique predecessor outside, as the loop passes
use them. What is found is a `NaturalLoop`: control enters its body only through the header,
coming from the preheader, and the header dominates the body.

`isInvariant` picks the temps whose value is fixed while a loop runs: they have one definition,
outside the loop and before the end of the preheader.
-/

namespace Arandu.Mir

open Arandu.Amir Arandu.Library List AmirFunc Dominators

variable {doms : Dominators} {lp : LoopInfo}

/-! ## Discovery -/

structure LoopInfo where
  /-- the single predecessor outside the loop -/
  preheader : BlockId
  /-- blocks in the loop, header first -/
  body : List BlockId
deriving DecidableEq, Repr

def LoopInfo.header (lp : LoopInfo) : BlockId := lp.body.headD 0

variable (f : AmirFunc)

/-- Edges to a block that dominates their source. -/
def backEdges (doms : Dominators) : List (BlockId × BlockId) :=
  (List.range f.blocks.length).flatMap fun b =>
    ((f.successors b).filter fun succ => doms.dominates succ b).map fun succ => (b, succ)

variable (edges : List (BlockId × BlockId))

def loopHeaders : List BlockId :=
  edges.foldl (fun headers e => if e.2 ∈ headers then headers else headers ++ [e.2]) []

/-- The sources of the back edges, other than the header itself; a source with two edges to the
header is listed twice. -/
def loopLatches (header : BlockId) : List BlockId :=
  ((edges.filter fun e => e.2 == header).map Prod.fst).filter (· ≠ header)

/-- The body of the natural loop of a header: what reaches a latch without passing the header. -/
def loopBody (header : BlockId) : List BlockId :=
  let latches := loopLatches edges header
  grow f.predecessors header (f.blocks.length + latches.length) latches.reverse (header :: latches)

def discoverLoops (doms : Dominators) : List LoopInfo :=
  let edges := backEdges f doms
  (loopHeaders edges).filterMap fun header =>
    let body := loopBody f edges header
    if body.any fun b => !doms.dominates header b then none
    else
      match (f.predecessors header).filter (· ∉ body) with
      | [outside] => some ⟨outside, body⟩
      | _ => none

/-! ## Invariant temps -/

/-- The id of a block, once for every definition of the temp in it. -/
def blockDefinitions (t : TempId) (block : AmirBasicBlock) : List BlockId :=
  ((f.paramsOf block.params).filter (fun p => p.id == t)).map (fun _ => block.id) ++
    ((f.blockStmts block.id).filter (fun stmt => stmt.def? == some t)).map fun _ => block.id

def definitionBlocks (t : TempId) : List BlockId :=
  f.blocks.flatMap (blockDefinitions f t)

/-- `compute_invariant`: available at the preheader with one definition outside the loop. -/
def isInvariant (lp : LoopInfo) (doms : Dominators) (t : TempId) : Bool :=
  match definitionBlocks f t with
  | [] => f.params.contains t || f.receiver == some t
  | [b] => decide (t < f.temps.length) && !lp.body.contains b && doms.dominates b lp.preheader
  | _ => false

/-! ## What discovery guarantees -/

/-- The edge lists are those of a well-formed function with the same blocks, some of whose edges
the terminators no longer have: constant propagation leaves such lists to the loop passes. -/
structure CfgInherited (f₀ f : AmirFunc) : Prop where
  wellFormed : WellFormed f₀
  exact : f₀.CfgExact
  cfg : f.cfg = f₀.cfg
  length : f.blocks.length = f₀.blocks.length
  edges : ∀ m n, f.Edge m n → f₀.Edge m n

/-- Control enters the body through the header only, and the header dominates the body. -/
structure NaturalLoop (f : AmirFunc) (lp : LoopInfo) : Prop where
  header : lp.header ∈ lp.body
  notEntry : lp.header ≠ 0
  outside : lp.preheader ∉ lp.body
  preheader : lp.preheader < f.blocks.length
  enters : ∀ m, f.Edge m lp.header → m ∈ lp.body ∨ m = lp.preheader
  closed : ∀ m, ∀ b ∈ lp.body, b ≠ lp.header → f.Edge m b → m ∈ lp.body
  dominated : ∀ b ∈ lp.body, Dominates f.Edge 0 lp.header b
  inside : ∀ b ∈ lp.body, b < f.blocks.length

lemma NaturalLoop.entry_not_mem {f : AmirFunc} (h : NaturalLoop f lp) : 0 ∉ lp.body :=
  fun hmem => h.notEntry (h.dominated 0 hmem).eq_entry

section Discovery

variable {f f₀ : AmirFunc}

lemma cfgInherited_refl (hwf : WellFormed f) (hexact : f.CfgExact) : CfgInherited f f :=
  ⟨hwf, hexact, rfl, rfl, fun _ _ h => h⟩

section

variable (h : CfgInherited f₀ f)
include h

lemma CfgInherited.mem_successors {m n : BlockId} : n ∈ f.successors m ↔ f₀.Edge m n := by
  rw [successors, h.cfg]
  show n ∈ f₀.successors m ↔ _
  rw [h.exact.succs]
  rfl

lemma CfgInherited.mem_predecessors {m n : BlockId} : m ∈ f.predecessors n ↔ f₀.Edge m n := by
  rw [predecessors, h.cfg]
  exact h.exact.mem_predecessors

lemma CfgInherited.covers : f.CfgCovers :=
  ⟨fun m n hedge => h.mem_successors.2 (h.edges m n hedge),
    fun _ _ => h.mem_successors.trans h.mem_predecessors.symm⟩

lemma CfgInherited.reachable {m n : BlockId} (hedge : f₀.Edge m n) :
    Reachable f.StoredEdge 0 m := by
  have hstored : ∀ m n, f₀.Edge m n → f.StoredEdge m n := fun m n hedge =>
    ⟨h.mem_successors.2 hedge, h.length ▸ h.wellFormed.targets m n hedge⟩
  by_cases hm : m = 0
  · exact hm ▸ .start
  by_contra hnot
  have hdead := h.wellFormed.dead m (lt_of_edge hedge) hm
    fun hreach => hnot (hreach.mono hstored)
  rw [Edge, hdead] at hedge
  cases hedge

end

lemma dominates_edge (hcfg : f.CfgCovers) (htargets : ∀ m n, f.Edge m n → n < f.blocks.length)
    (hdoms : new f = some doms) {a b : BlockId} (h : doms.dominates a b = true) :
    Dominates f.Edge 0 a b :=
  (dominates_sound hcfg.mirror hdoms h).anti (edge_stored hcfg htargets)

lemma head?_loopBody (f : AmirFunc) (edges : List (BlockId × BlockId)) (header : BlockId) :
    ∃ rest, loopBody f edges header = header :: rest := by
  have hprefix : header :: loopLatches edges header <+: loopBody f edges header :=
    prefix_grow _ _ _
  obtain ⟨rest, hrest⟩ := hprefix
  exact ⟨loopLatches edges header ++ rest, hrest.symm⟩

lemma unseen_le (n : Nat) (seen : List Nat) : unseen n seen ≤ n := by
  simpa [unseen] using Finset.card_filter_le (Finset.range n) (· ∉ seen)

lemma loopBody_closed (hpreds : ∀ b, ∀ p ∈ f.predecessors b, p < f.blocks.length)
    (edges : List (BlockId × BlockId)) (header : BlockId) :
    ∀ b ∈ loopBody f edges header, b ≠ header →
      ∀ p ∈ f.predecessors b, p ∈ loopBody f edges header := by
  apply grow_closed hpreds
  · have := unseen_le f.blocks.length (header :: loopLatches edges header)
    rw [length_reverse]
    omega
  · exact mem_cons_self
  · intro b hb hne
    exact .inl (mem_reverse.2 ((mem_cons.1 hb).resolve_left hne))

lemma mem_backEdges {m n : BlockId} : (m, n) ∈ backEdges f doms ↔
      m < f.blocks.length ∧ n ∈ f.successors m ∧ doms.dominates n m = true := by
  constructor
  · intro h
    obtain ⟨b, hb, hmap⟩ := mem_flatMap.1 h
    obtain ⟨succ, hsucc, heq⟩ := mem_map.1 hmap
    cases heq
    exact ⟨mem_range.1 hb, (mem_filter.1 hsucc).1, by simpa using (mem_filter.1 hsucc).2⟩
  · intro h
    obtain ⟨hm, hsucc, hdom⟩ := h
    exact mem_flatMap.2 ⟨m, mem_range.2 hm,
      mem_map.2 ⟨n, mem_filter.2 ⟨hsucc, by simpa using hdom⟩, rfl⟩⟩

lemma mem_loopBody_of_backEdge {m header : BlockId} (hne : m ≠ header)
    (h : (m, header) ∈ backEdges f doms) : m ∈ loopBody f (backEdges f doms) header := by
  have hprefix : header :: loopLatches (backEdges f doms) header <+:
      loopBody f (backEdges f doms) header := prefix_grow _ _ _
  apply hprefix.subset
  apply mem_cons_of_mem
  refine mem_filter.2 ⟨mem_map.2 ⟨_, mem_filter.2 ⟨h, by simp⟩, rfl⟩, ?_⟩
  simpa using hne

lemma naturalLoop_of_mem (hcfg : CfgInherited f₀ f) (hn : 0 < f.blocks.length)
    (htargets : ∀ m n, f.Edge m n → n < f.blocks.length) (hdoms : new f = some doms)
    (h : lp ∈ discoverLoops f doms) : NaturalLoop f lp := by
  obtain ⟨header, hheader, hloop⟩ := mem_filterMap.1 h
  dsimp only at hloop
  split at hloop
  · cases hloop
  next hdominated =>
    split at hloop
    next outside hfilter =>
      cases hloop
      have hpreds : ∀ b, ∀ p ∈ f.predecessors b, p < f.blocks.length :=
        fun b p hp => hcfg.length ▸ lt_of_edge (hcfg.mem_predecessors.1 hp)
      obtain ⟨rest, hbody⟩ := head?_loopBody f (backEdges f doms) header
      have hhead : (⟨outside, loopBody f (backEdges f doms) header⟩ : LoopInfo).header =
          header := by
        rw [hbody]
        rfl
      have hmem : outside ∈ (f.predecessors header).filter
          (· ∉ loopBody f (backEdges f doms) header) := by
        rw [hfilter]
        exact mem_cons_self
      obtain ⟨hpred, hout⟩ := mem_filter.1 hmem
      have hout : outside ∉ loopBody f (backEdges f doms) header := by simpa using hout
      have hin : header ∈ loopBody f (backEdges f doms) header := by
        rw [hbody]
        exact mem_cons_self
      refine ⟨hhead.symm ▸ hin, ?_, hout, hpreds header outside hpred, ?_, ?_, ?_, ?_⟩
      · -- the entry dominates the block outside, which would be a latch
        rw [hhead]
        intro hzero
        apply hout
        refine mem_loopBody_of_backEdge (fun heq => hout (heq ▸ hin)) (mem_backEdges.2 ?_)
        have hedge := hcfg.mem_predecessors.1 hpred
        refine ⟨hpreds header outside hpred, hcfg.mem_successors.2 hedge, ?_⟩
        rw [hzero]
        exact dominates_entry hcfg.covers.mirror hdoms hn (hcfg.reachable hedge)
      · rw [hhead]
        intro m hedge
        by_cases hm : m ∈ loopBody f (backEdges f doms) header
        · exact .inl hm
        right
        have hm : m ∈ (f.predecessors header).filter (· ∉ loopBody f (backEdges f doms) header) :=
          mem_filter.2 ⟨hcfg.mem_predecessors.2 (hcfg.edges m header hedge), by simpa using hm⟩
        rw [hfilter] at hm
        exact mem_singleton.1 hm
      · rw [hhead]
        intro m b hb hne hedge
        exact loopBody_closed hpreds _ _ b hb hne m (hcfg.mem_predecessors.2 (hcfg.edges m b hedge))
      · rw [hhead]
        intro b hb
        rw [Bool.not_eq_true, any_eq_false] at hdominated
        exact dominates_edge hcfg.covers htargets hdoms (by simpa using hdominated b hb)
      · -- the header is the target of an edge, every other block the source of one
        refine mem_grow (fun b p hp => hpreds b p hp) fun b hb => ?_
        rcases mem_cons.1 hb with rfl | hb
        · exact hcfg.length ▸ hcfg.wellFormed.targets outside b (hcfg.mem_predecessors.1 hpred)
        · obtain ⟨⟨m, n⟩, he, rfl⟩ := mem_map.1 (mem_filter.1 hb).1
          exact (mem_backEdges.1 (mem_filter.1 he).1).1
    · cases hloop

end Discovery

/-! ## What invariance guarantees -/

/-- The loop does not define the temp, and it is defined at the end of the preheader. -/
structure LoopInvariant (f : AmirFunc) (lp : LoopInfo) (t : TempId) : Prop where
  stmts : ∀ b ∈ lp.body, ∀ stmt ∈ f.blockStmts b, stmt.def? ≠ some t
  params : ∀ b ∈ lp.body, t ∉ (f.blockParamsOf b).map BlockParam.id
  available : f.DefinedBefore t lp.preheader (f.blockStmts lp.preheader).length

section Invariance

variable {f : AmirFunc} {t : TempId}

lemma block_mem {b : BlockId} (hb : b < f.blocks.length) : f.block b ∈ f.blocks := by
  rw [block_eq_getElem hb]
  exact getElem_mem hb

lemma mem_definitionBlocks (hids : ∀ b < f.blocks.length, (f.block b).id = b)
    {b : BlockId} (hb : b < f.blocks.length) : b ∈ definitionBlocks f t ↔
      t ∈ (f.blockParamsOf b).map BlockParam.id ∨ ∃ stmt ∈ f.blockStmts b, stmt.def? = some t := by
  have hdef (i : BlockId) (hi : i < f.blocks.length) : b ∈ blockDefinitions f t (f.block i) ↔
      i = b ∧ (t ∈ (f.blockParamsOf i).map BlockParam.id ∨
        ∃ stmt ∈ f.blockStmts i, stmt.def? = some t) := by
    simp only [blockDefinitions, hids i hi, blockParamsOf, mem_append, mem_map, mem_filter,
      beq_iff_eq, exists_and_right, ← or_and_right]
    exact and_comm
  rw [definitionBlocks, mem_flatMap]
  constructor
  · rintro ⟨block, hblock, h⟩
    obtain ⟨i, hi, rfl⟩ := getElem_of_mem hblock
    rw [← block_eq_getElem hi, hdef i hi] at h
    exact h.1 ▸ h.2
  · intro h
    exact ⟨f.block b, block_mem hb, (hdef b hb).2 ⟨rfl, h⟩⟩

lemma loopInvariant_of_isInvariant (hids : ∀ b < f.blocks.length, (f.block b).id = b)
    (hcfg : f.CfgCovers) (htargets : ∀ m n, f.Edge m n → n < f.blocks.length)
    (hdoms : new f = some doms) (hloop : NaturalLoop f lp)
    (h : isInvariant f lp doms t = true) : LoopInvariant f lp t := by
  unfold isInvariant at h
  -- a definition inside the loop would be listed
  have hinside : (∀ b ∈ lp.body, b ∉ definitionBlocks f t) →
      (∀ b ∈ lp.body, ∀ stmt ∈ f.blockStmts b, stmt.def? ≠ some t) ∧
      ∀ b ∈ lp.body, t ∉ (f.blockParamsOf b).map BlockParam.id := by
    intro hnone
    refine ⟨fun b hb stmt hstmt hdef => hnone b hb ?_, fun b hb hparam => hnone b hb ?_⟩
    · exact (mem_definitionBlocks hids (hloop.inside b hb)).2 (.inr ⟨stmt, hstmt, hdef⟩)
    · exact (mem_definitionBlocks hids (hloop.inside b hb)).2 (.inl hparam)
  split at h
  next hnone =>
    obtain ⟨hstmts, hparams⟩ := hinside (by simp [hnone])
    refine ⟨hstmts, hparams, .inl ?_⟩
    simpa using h
  next d hone =>
    simp only [Bool.and_eq_true, Bool.not_eq_true', contains_eq_mem, decide_eq_false_iff_not] at h
    obtain ⟨⟨-, hout⟩, hdom⟩ := h
    obtain ⟨hstmts, hparams⟩ := hinside fun b hb hmem => by
      rw [hone, mem_singleton] at hmem
      exact hout (hmem ▸ hb)
    refine ⟨hstmts, hparams, ?_⟩
    have hdom := dominates_edge hcfg htargets hdoms hdom
    have hd : d < f.blocks.length := by
      obtain ⟨block, hblock, h⟩ := mem_flatMap.1
        (show d ∈ definitionBlocks f t by rw [hone]; exact mem_cons_self)
      obtain ⟨i, hi, rfl⟩ := getElem_of_mem hblock
      have hid : (f.blocks[i]).id = i := by
        rw [← block_eq_getElem hi]
        exact hids i hi
      rcases mem_append.1 h with h | h <;> obtain ⟨_, -, heq⟩ := mem_map.1 h
      · exact heq ▸ hid.symm ▸ hi
      · exact heq ▸ hid.symm ▸ hi
    rcases (mem_definitionBlocks hids hd).1 (by rw [hone]; exact mem_cons_self) with
      hparam | ⟨stmt, hstmt, hdef⟩
    · exact .inr (.inl ⟨d, hparam, hdom⟩)
    obtain ⟨j, hj⟩ := getElem?_of_mem hstmt
    refine .inr (.inr ⟨d, j, stmt, hj, hdef, ?_⟩)
    by_cases hdp : d = lp.preheader
    · refine .inl ⟨hdp, ?_⟩
      subst hdp
      exact lt_of_getElem? hj
    · exact .inr ⟨hdp, hdom⟩
  · cases h

end Invariance

end Arandu.Mir
