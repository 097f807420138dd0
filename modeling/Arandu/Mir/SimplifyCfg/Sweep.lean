import Arandu.Mir.SimplifyCfg.Local

/-!
# Removing unreachable blocks

The kept blocks are the reachable ones, in their old order. `oldToNew` counts the kept
blocks before a block, which is the position of the block in the list of kept blocks
(`getElem?_filter_range`); everything else follows from that bijection.
-/

namespace Arandu.Mir.SimplifyCfg

open Arandu.Amir Arandu.Library List AmirFunc AmirTerminator MarkQueue

/-! ## Positions of kept blocks -/

/-- Counting what is kept before `x` gives the position of `x`. -/
lemma getElem?_filter_range (p : Nat → Bool) {n x : Nat} (hx : x < n) (hp : p x = true) :
    ((List.range n).filter p)[(List.range x).countP p]? = some x := by
  induction n with
  | zero => exact absurd hx (Nat.not_lt_zero x)
  | succ n ih =>
    rw [range_succ, filter_append]
    rcases Nat.lt_succ_iff_lt_or_eq.1 hx with hlt | rfl
    · have hfound := ih hlt
      have hpos := lt_of_getElem? hfound
      rwa [getElem?_append_left hpos]
    · -- `x` itself is the last one kept
      rw [countP_eq_length_filter]
      simp [hp]

lemma countP_of_getElem?_filter_range (p : Nat → Bool) {n i x : Nat}
    (hi : ((List.range n).filter p)[i]? = some x) :
    x < n ∧ p x = true ∧ (List.range x).countP p = i := by
  have hmem := List.mem_filter.1 (List.mem_of_getElem? hi)
  have hx : x < n := mem_range.1 hmem.1
  have hfound := getElem?_filter_range p hx hmem.2
  have hnodup : ((List.range n).filter p).Nodup := nodup_range.filter p
  have hlt := lt_of_getElem? hfound
  exact ⟨hx, hmem.2, (getElem?_inj hlt hnodup).1 (hfound.trans hi.symm)⟩

/-! ## Terminators -/

section

variable (map : BlockId → Option BlockId) (term : AmirTerminator)

lemma edges_remapTerminator :
    (remapTerminator map term).edges = term.edges.map fun e => ((map e.1).getD e.1, e.2) := by
  cases term <;> simp [remapTerminator, edges]

lemma targets_remapTerminator :
    (remapTerminator map term).targets = term.targets.map fun t => (map t).getD t := by
  cases term <;> simp [remapTerminator, targets]

end

/-! ## The kept blocks -/

variable {f : AmirFunc} {x : BlockId}

lemma keepBlocks_spec (map : BlockId → Option BlockId) (kept : List BlockId)
    (pool : List BlockParam) : (keepBlocks f map kept pool).1.length = kept.length ∧
      (∃ ext, (keepBlocks f map kept pool).2 = pool ++ ext) ∧
      ∀ (i x : Nat), kept[i]? = some x → ∃ block, (keepBlocks f map kept pool).1[i]? = some block ∧
        block.terminator = remapTerminator map (f.block x).terminator ∧
        ((keepBlocks f map kept pool).2.drop block.params.start).take block.params.len =
          f.blockParamsOf x := by
  induction kept generalizing pool with
  | nil => exact ⟨rfl, ⟨[], (append_nil pool).symm⟩, fun i x hi => by simp at hi⟩
  | cons old rest ih =>
    obtain ⟨hlength, ⟨ext, hext⟩, hblocks⟩ := ih (pool ++ f.blockParamsOf old)
    refine ⟨by simp [keepBlocks, hlength], ⟨f.blockParamsOf old ++ ext, ?_⟩, ?_⟩
    · simp [keepBlocks, hext]
    intro i x hi
    cases i with
    | zero =>
      cases hi
      simp only [keepBlocks, hext]
      simp
    | succ i => exact hblocks i x hi

/-! ## The sweep -/

/-- `g` holds the blocks of `f` that satisfy `p`, under their new numbers. -/
structure Swept (f : AmirFunc) (p : BlockId → Bool) (g : AmirFunc) : Prop where
  temps : g.temps = f.temps
  cfg : g.cfg = computeCfgEdges g.blocks
  length : g.blocks.length = ((range f.blocks.length).filter p).length
  terminator : ∀ i x : Nat, ((range f.blocks.length).filter p)[i]? = some x →
    (g.block i).terminator = remapTerminator (oldToNew p) (f.block x).terminator
  params : ∀ i x : Nat, ((range f.blocks.length).filter p)[i]? = some x →
    g.blockParamsOf i = f.blockParamsOf x
  stmts : ∀ i x : Nat, ((range f.blocks.length).filter p)[i]? = some x →
    g.blockStmts i = f.blockStmts x
  stmtRange : ∀ b < g.blocks.length, (g.block b).statements.endUsize ≤ g.stmts.length
  stmtOwner : ∀ b b' k, k ∈ g.blockStmtIds b → k ∈ g.blockStmtIds b' → b = b'

lemma marked_iff_reachable (hshape : Shape f) :
    (reachableBlocks f).marked x = true ↔ Reachable f.Edge 0 x := by
  constructor
  · intro hx
    refine marked_induction (P := Reachable f.Edge 0) ?_ ?_ hx
    · intro i hi
      rw [mem_singleton.1 hi]
      exact .start
    · intro i hi j hj
      rw [hshape.exact.succs] at hj
      exact hi.step hj
  · rintro ⟨p, hp⟩
    induction hp with
    | start => exact marked_seed (mem_singleton.2 rfl) hshape.nonempty
    | step _ hedge ih =>
      refine marked_dep ih ?_ (hshape.targets _ _ hedge)
      rw [hshape.exact.succs]
      exact hedge

/-- The function with the kept blocks, before its statements are moved. -/
def keptFunc (f : AmirFunc) (p : BlockId → Bool) (kept : List BlockId) : AmirFunc :=
  { f with
    blocks := (keepBlocks f (oldToNew p) kept []).1
    blockParams := (keepBlocks f (oldToNew p) kept []).2 }

lemma removeUnreachableBlocks_ok (hshape : Shape f) :
    ∃ removed g, removeUnreachableBlocks f = .ok (removed, g) ∧
      (g = f ∨ Swept f (reachableBlocks f).marked g) := by
  unfold removeUnreachableBlocks
  simp only
  split
  · exact ⟨false, f, rfl, .inl rfl⟩
  split
  · exact ⟨false, f, rfl, .inl rfl⟩
  generalize hp : (reachableBlocks f).marked = p
  generalize hkept : (range f.blocks.length).filter p = kept
  have hnodup : kept.Nodup := hkept ▸ nodup_range.filter p
  have hlt : ∀ x ∈ kept, x < f.blocks.length := fun x hx =>
    mem_range.1 (mem_filter.1 (hkept ▸ hx)).1
  obtain ⟨hlength, -, hblocks⟩ := keepBlocks_spec (f := f) (oldToNew p) kept []
  have hdistinct : (kept.map f.blockStmtIds).flatten.Nodup := by
    refine nodup_flatMap.2 ⟨fun x _ => (f.block x).statements.nodup_iterIds, ?_⟩
    exact hnodup.imp fun {x y} hne k hk hk' => hne (hshape.stmtOwner x y k hk hk')
  have hrange : ∀ ids ∈ kept.map f.blockStmtIds, ∀ i ∈ ids, i < f.stmts.length := by
    intro ids hids i hi
    obtain ⟨x, hx, rfl⟩ := mem_map.1 hids
    have hend := hshape.stmtRange x (hlt x hx)
    rw [AmirFunc.blockStmtIds, DenseRange.mem_iterIds] at hi
    exact lt_of_lt_of_le hi.2 hend
  obtain ⟨g, hg, hrebuilt⟩ := rebuildStmts_ok
    (f := keptFunc f p kept) (by simp [hlength, keptFunc]) hdistinct hrange
  refine ⟨true, { g with cfg := computeCfgEdges g.blocks }, ?_, .inr ?_⟩
  · rw [keptFunc] at hg
    rw [hg]
  -- the kept block behind a position
  have hblock : ∀ i x : Nat, kept[i]? = some x →
      (g.block i).terminator = remapTerminator (oldToNew p) (f.block x).terminator ∧
      g.blockParamsOf i = f.blockParamsOf x := by
    intro i x hi
    obtain ⟨block, hmem, hterm, hparams⟩ := hblocks i x hi
    have hread : (keptFunc f p kept).block i = block := by
      simp [AmirFunc.block, keptFunc, hmem]
    refine ⟨?_, ?_⟩
    · rw [hrebuilt.terminator, hread, hterm]
    · rw [hrebuilt.blockParamsOf, AmirFunc.blockParamsOf, hread]
      exact hparams
  refine ⟨hrebuilt.temps, rfl, ?_, ?_, ?_, ?_, hrebuilt.stmtRange, hrebuilt.stmtOwner⟩
  · rw [hkept]
    exact hrebuilt.length.trans hlength
  · rw [hkept]
    exact fun i x hi => (hblock i x hi).1
  · rw [hkept]
    exact fun i x hi => (hblock i x hi).2
  · rw [hkept]
    intro i x hi
    have hstmts := hrebuilt.blockStmts i
    have hpart : (kept.map f.blockStmtIds).getD i [] = f.blockStmtIds x := by
      simp [hi]
    rw [hpart] at hstmts
    exact hstmts

/-! ## Sweeping keeps shape and meaning -/

section Swept

variable {g : AmirFunc} {p : BlockId → Bool}

lemma oldToNew_of_reachable (h : p x = true) : (oldToNew p x).getD x = (range x).countP p := by
  simp [oldToNew, h]

lemma Swept.position (_ : Swept f p g) (hx : x < f.blocks.length) (hp : p x = true) :
    ((range f.blocks.length).filter p)[(oldToNew p x).getD x]? = some x := by
  rw [oldToNew_of_reachable hp]
  exact getElem?_filter_range p hx hp

lemma Swept.kept (h : Swept f p g) {i : BlockId} (hi : i < g.blocks.length) :
    ∃ x, ((range f.blocks.length).filter p)[i]? = some x ∧ x < f.blocks.length ∧
      p x = true ∧ (oldToNew p x).getD x = i := by
  have hi' := h.length ▸ hi
  refine ⟨_, getElem?_eq_getElem hi', ?_⟩
  obtain ⟨hx, hpx, hcount⟩ := countP_of_getElem?_filter_range p (getElem?_eq_getElem hi')
  exact ⟨hx, hpx, (oldToNew_of_reachable hpx).trans hcount⟩

lemma Swept.position_lt (h : Swept f p g) (hx : x < f.blocks.length)
    (hp : p x = true) : (oldToNew p x).getD x < g.blocks.length := by
  rw [h.length]
  exact lt_of_getElem? (h.position hx hp)

lemma Swept.edge (h : Swept f p g) {m n : BlockId} :
    g.Edge m n ↔ ∃ x y, p x = true ∧ f.Edge x y ∧ (oldToNew p x).getD x = m ∧
      (oldToNew p y).getD y = n := by
  constructor
  · intro hedge
    obtain ⟨x, hi, -, hpx, hm⟩ := h.kept (lt_of_edge hedge)
    rw [Edge, h.terminator m x hi, targets_remapTerminator] at hedge
    obtain ⟨y, hy, hn⟩ := mem_map.1 hedge
    exact ⟨x, y, hpx, hy, hm, hn⟩
  · rintro ⟨x, y, hpx, hedge, rfl, rfl⟩
    have hpos := h.position (lt_of_edge hedge) hpx
    rw [Edge, h.terminator _ x hpos, targets_remapTerminator]
    exact mem_map_of_mem hedge

variable (hreach : ∀ x, p x = true ↔ Reachable f.Edge 0 x)

include hreach

lemma position_zero : (oldToNew p 0).getD 0 = 0 := by
  rw [oldToNew_of_reachable ((hreach 0).2 .start)]
  rfl

lemma Swept.shape (h : Swept f p g) (hshape : Shape f) : Shape g := by
  have hstep : ∀ {x y}, p x = true → f.Edge x y → p y = true := fun hpx hedge =>
    (hreach _).2 (((hreach _).1 hpx).step hedge)
  have hp0 : p 0 = true := (hreach 0).2 .start
  have htargets : ∀ m n, g.Edge m n → n < g.blocks.length := by
    intro m n hedge
    obtain ⟨x, y, hpx, hxy, -, rfl⟩ := (h.edge).1 hedge
    exact h.position_lt (hshape.targets x y hxy) (hstep hpx hxy)
  refine ⟨⟨?_, htargets, ?_, h.stmtRange, h.stmtOwner⟩, cfgExact_of_compute h.cfg htargets⟩
  · exact lt_of_le_of_lt (Nat.zero_le _) (h.position_lt hshape.nonempty hp0)
  · intro m n args hmem
    have hm := lt_of_edge (mem_targets_of_mem_edges hmem)
    obtain ⟨x, hi, -, hpx, -⟩ := h.kept hm
    rw [h.terminator m x hi, edges_remapTerminator] at hmem
    obtain ⟨⟨y, args'⟩, hy, heq⟩ := mem_map.1 hmem
    obtain ⟨rfl, rfl⟩ := Prod.mk.injEq .. ▸ heq
    have hedge : f.Edge x y := mem_targets_of_mem_edges hy
    rw [h.params _ y (h.position (hshape.targets x y hedge) (hstep hpx hedge))]
    exact hshape.arity x y _ hy

lemma Swept.folds (h : Swept f p g) (hshape : Shape f) : Folds f g := by
  have hzero := position_zero hreach
  have hp0 : p 0 = true := (hreach 0).2 .start
  have horigin : ∀ {i x : BlockId}, ((range f.blocks.length).filter p)[i]? = some x →
      ((range f.blocks.length).filter p).getD i 0 = x := fun hi => by simp [hi]
  have hpos0 := h.position hshape.nonempty hp0
  rw [hzero] at hpos0
  refine folds_of_blocks (fun i => ((range f.blocks.length).filter p).getD i 0)
    (fun i => i < g.blocks.length) (horigin hpos0) ?_ ?_
  · exact hzero ▸ h.position_lt hshape.nonempty hp0
  intro E b st hb
  obtain ⟨x, hi, -, hpx, -⟩ := h.kept hb
  refine ⟨1, Nat.le_refl 1, ?_⟩
  refine step_follows (oldToNew p) h.temps ?_ ?_ ?_ st
  · rw [horigin hi]
    exact h.stmts b x hi
  · rw [horigin hi]
    exact h.terminator b x hi
  · intro t ht
    rw [horigin hi] at ht
    have hlt := hshape.targets x t ht
    have hpt : p t = true := (hreach t).2 (((hreach x).1 hpx).step ht)
    exact ⟨horigin (h.position hlt hpt), h.position_lt hlt hpt, h.params _ t (h.position hlt hpt)⟩

end Swept

end Arandu.Mir.SimplifyCfg
