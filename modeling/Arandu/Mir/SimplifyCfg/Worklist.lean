import Arandu.Mir.SimplifyCfg.Local

/-!
# The worklist and the compaction

`visitBlock_sound` puts threading and merging together, `localLoop_sound` carries the
invariant over any number of visits, and `compactMergedStatements_ok` shows that the
compaction afterwards cannot fail and yields the function the invariant speaks about.
-/

namespace Arandu.Mir.SimplifyCfg

open Arandu.Amir Arandu.Library List AmirFunc

variable {f g f₀ : AmirFunc} {absorbed : Absorbed} {parts : List (List InstrId)} {s : LocalState}

/-! ## Compaction -/

lemma mergedAway_iff {b : BlockId} : mergedAway absorbed b = true ↔ Merged absorbed b := by
  simp only [mergedAway, any_eq_true]
  constructor
  · rintro ⟨bs, hbs, hb⟩
    obtain ⟨i, hi, rfl⟩ := getElem_of_mem hbs
    exact ⟨i, by simpa [getElem?_eq_getElem hi] using hb⟩
  rintro ⟨i, hb⟩
  by_cases hi : i < absorbed.length
  · refine ⟨absorbed[i], getElem_mem hi, ?_⟩
    simpa [getElem?_eq_getElem hi] using hb
  · simp [getElem?_eq_none (not_lt.1 hi)] at hb

/-- The blocks whose statements one block owns after the compaction. -/
def owned (absorbed : Absorbed) (b : BlockId) : List BlockId :=
  if mergedAway absorbed b then [] else b :: absorbed.getD b []

lemma compactParts_eq (f : AmirFunc) (absorbed : Absorbed) : compactParts f absorbed =
      (range f.blocks.length).map fun b => (owned absorbed b).flatMap f.blockStmtIds := by
  refine map_congr_left fun b _ => ?_
  unfold owned
  split
  · rfl
  · rfl

lemma owned_cases {b x : BlockId} (hx : x ∈ owned absorbed b) :
    ¬ Merged absorbed b ∧ (x = b ∨ x ∈ absorbed.getD b []) := by
  unfold owned at hx
  split at hx
  · cases hx
  next hb =>
    rw [mergedAway_iff] at hb
    exact ⟨hb, mem_cons.1 hx⟩

lemma nodup_owned (habs : Absorbs f absorbed) (b : BlockId) : (owned absorbed b).Nodup := by
  unfold owned
  split
  · exact nodup_nil
  next hb =>
    rw [mergedAway_iff] at hb
    exact nodup_cons.2 ⟨fun hmem => hb ⟨b, hmem⟩, habs.nodup b⟩

lemma owned_inj (habs : Absorbs f absorbed) {b b' x : BlockId}
    (hx : x ∈ owned absorbed b) (hx' : x ∈ owned absorbed b') : b = b' := by
  obtain ⟨hb, hx⟩ := owned_cases hx
  obtain ⟨hb', hx'⟩ := owned_cases hx'
  rcases hx with rfl | hx
  · rcases hx' with rfl | hx'
    · rfl
    · exact absurd ⟨b', hx'⟩ hb
  · rcases hx' with rfl | hx'
    · exact absurd ⟨b, hx⟩ hb'
    · exact habs.owner b b' x hx hx'

lemma nodup_compactParts (hshape : Shape f) (habs : Absorbs f absorbed) :
    (compactParts f absorbed).flatten.Nodup := by
  rw [compactParts_eq]
  refine nodup_flatMap.2 ⟨fun b _ => ?_, ?_⟩
  · refine nodup_flatMap.2 ⟨fun x _ => (f.block x).statements.nodup_iterIds, ?_⟩
    refine (nodup_owned habs b).imp fun {x y} hxy k hk hk' => ?_
    exact hxy (hshape.stmtOwner x y k hk hk')
  refine nodup_range.imp fun {b b'} hne k hk hk' => ?_
  obtain ⟨x, hx, hk⟩ := mem_flatMap.1 hk
  obtain ⟨y, hy, hk'⟩ := mem_flatMap.1 hk'
  have hxy := hshape.stmtOwner x y k hk hk'
  exact hne (owned_inj habs hx (hxy ▸ hy))

lemma getD_compactParts (habs : Absorbs f absorbed) (b : BlockId) :
    ((compactParts f absorbed).getD b []).map f.stmt = mergedStmts f absorbed b := by
  have hflat : ((owned absorbed b).flatMap f.blockStmtIds).map f.stmt =
      mergedStmts f absorbed b := by
    unfold owned
    split
    next hb => rw [mergedStmts_of_merged (mergedAway_iff.1 hb)]; rfl
    next hb =>
      rw [mergedStmts_of_not_merged (fun h => hb (mergedAway_iff.2 h)), map_flatMap]
      rfl
  rw [← hflat, compactParts_eq]
  by_cases hb : b < f.blocks.length
  · simp [hb]
  · -- outside the table there is nothing to own
    have hnil : absorbed.getD b [] = [] := by
      simp [getElem?_eq_none (habs.length ▸ not_lt.1 hb)]
    have hids : f.blockStmtIds b = [] := by
      rw [blockStmtIds, block_of_length_le (not_lt.1 hb)]
      rfl
    unfold owned
    rw [hnil]
    split <;> simp [hb, hids]

lemma compacted_of_rebuilt (h : Rebuilt f parts g)
    (hparts : ∀ b, (parts.getD b []).map f.stmt = mergedStmts f absorbed b) :
    Compacted f absorbed g :=
  ⟨h.temps, h.blockParamsOf, h.terminator, fun b => (h.blockStmts b).trans (hparts b)⟩

lemma shape_of_rebuilt (h : Rebuilt f parts g) (hshape : Shape f) : Shape g := by
  have hexact := hshape.exact
  refine ⟨h.blocksFit h.pool hshape.toBlocksFit, ?_, ?_, ?_, ?_⟩
  · rw [h.cfg, h.length]
    exact hexact.succLength
  · rw [h.cfg, h.length]
    exact hexact.predLength
  · intro b
    rw [successors, h.cfg, h.terminator]
    exact hexact.succs b
  · intro m n
    rw [predecessors, h.cfg, h.terminator]
    exact hexact.preds m n

lemma compactMergedStatements_ok (hshape : Shape f) (habs : Absorbs f absorbed) :
    ∃ g, compactMergedStatements f absorbed = .ok g ∧ Shape g ∧ Compacted f absorbed g := by
  have hrange : ∀ ids ∈ compactParts f absorbed, ∀ i ∈ ids, i < f.stmts.length := by
    intro ids hids i hi
    rw [compactParts_eq] at hids
    obtain ⟨b, hb, rfl⟩ := mem_map.1 hids
    obtain ⟨x, hx, hi⟩ := mem_flatMap.1 hi
    have hxlt : x < f.blocks.length := by
      rcases (owned_cases hx).2 with rfl | hx
      · exact mem_range.1 hb
      · exact habs.range x ⟨b, hx⟩
    have hend := hshape.stmtRange x hxlt
    rw [blockStmtIds, DenseRange.mem_iterIds] at hi
    exact lt_of_lt_of_le hi.2 hend
  obtain ⟨g, hg, hrebuilt⟩ := rebuildStmts_ok (f := f) (by simp [compactParts])
    (nodup_compactParts hshape habs) hrange
  refine ⟨g, ?_, shape_of_rebuilt hrebuilt hshape,
    compacted_of_rebuilt hrebuilt (getD_compactParts habs)⟩
  rw [compactMergedStatements, hg]

lemma compacted_self (hnone : ∀ b, absorbed.getD b [] = []) : Compacted f absorbed f := by
  refine ⟨rfl, fun _ => rfl, fun _ => rfl, fun b => ?_⟩
  have hnot : ¬ Merged absorbed b := by
    rintro ⟨x, hx⟩
    rw [hnone x] at hx
    cases hx
  rw [mergedStmts_of_not_merged hnot, hnone]
  simp

/-! ## The worklist -/

/-- The invariant of the worklist: whatever carries the merges out folds the function the
worklist started from, as long as no block has absorbed the entry. -/
structure LocalInv (f₀ : AmirFunc) (s : LocalState) : Prop where
  shape : Shape s.func
  absorbs : Absorbs s.func s.absorbed
  folds : ¬ Merged s.absorbed 0 → ∀ g, Compacted s.func s.absorbed g → Folds f₀ g

/-- One transformation keeps the invariant if it keeps its parts and folds. -/
lemma LocalInv.next {s' : LocalState} (hinv : LocalInv f₀ s)
    (hshape : Shape s'.func) (habs : Absorbs s'.func s'.absorbed)
    (hmerged : ∀ x, Merged s.absorbed x → Merged s'.absorbed x)
    (hfolds : ¬ Merged s'.absorbed 0 → ∀ g g', Compacted s.func s.absorbed g →
      Compacted s'.func s'.absorbed g' → Folds g g') : LocalInv f₀ s' := by
  refine ⟨hshape, habs, fun hentry g' hg' => ?_⟩
  -- some compaction of the state before exists
  obtain ⟨g, -, -, hg⟩ := compactMergedStatements_ok hinv.shape hinv.absorbs
  exact (hinv.folds (fun h => hentry (hmerged 0 h)) g hg).trans (hfolds hentry g g' hg hg')

lemma visitBlock_sound (hinv : LocalInv f₀ s)
    {bid : BlockId} (hbid : bid < s.func.blocks.length) : LocalInv f₀ (visitBlock s bid).2 := by
  obtain ⟨f, absorbed, changed⟩ := s
  -- after threading
  have hthread : (threadBlock f bid absorbed).2.blocks.length = f.blocks.length ∧
      LocalInv f₀ ⟨(threadBlock f bid absorbed).2, absorbed, changed⟩ := by
    rcases threadBlock_cases f bid absorbed with hsame | ⟨target, dest, hterm, hne, hchain, heq⟩
    · rw [hsame]
      exact ⟨rfl, hinv⟩
    have hthreads : Threads f absorbed bid target dest := ⟨hbid, hterm, hne, hchain⟩
    rw [heq]
    refine ⟨by simp [threaded], hinv.next (hthreads.shape hinv.shape)
      (hthreads.absorbs hinv.absorbs) (fun _ => id) fun _ g g' => ?_⟩
    exact hthreads.folds hinv.shape
  obtain ⟨hlen, hinv'⟩ := hthread
  have hbid' := hlen ▸ hbid
  simp only [visitBlock]
  -- then merging
  rcases mergeBlockCandidate_cases hinv'.shape.exact hbid' absorbed with
    hnone | ⟨src, hmerges, hsome⟩
  · rw [hnone]
    exact hinv'
  rw [hsome]
  have hshape : Shape (mergeTwoBlocks (threadBlock f bid absorbed).2 bid src absorbed).1 :=
    hmerges.shape hinv'.shape
  have hmerged := fun x => hmerges.merged (x := x) hinv'.absorbs
  refine hinv'.next hshape (hmerges.absorbs hinv'.shape hinv'.absorbs)
    (fun x hx => (hmerged x).2 (.inr hx)) fun hentry g g' => ?_
  exact hmerges.folds hinv'.shape hinv'.absorbs fun hsrc => hentry ((hmerged 0).2 (.inl hsrc.symm))

lemma localLoop_sound {visits : Nat} {worklist : List BlockId}
    (hinv : LocalInv f₀ s) : LocalInv f₀ (localLoop visits worklist s) := by
  induction visits generalizing worklist s with
  | zero => exact hinv
  | succ visits ih =>
    cases worklist with
    | nil => exact hinv
    | cons bid worklist =>
      unfold localLoop
      split
      · exact ih hinv
      next hbid =>
        have hvisit := visitBlock_sound hinv (not_le.1 hbid)
        simp only
        split
        · exact ih ⟨hvisit.shape, hvisit.absorbs, hvisit.folds⟩
        · exact ih hvisit

lemma localInv_start (hshape : Shape f) : LocalInv f ⟨f, replicate f.blocks.length [], false⟩ := by
  have hnone (b : BlockId) : (replicate f.blocks.length ([] : List BlockId)).getD b [] = [] :=
    getElem?_getD_replicate_default_eq ..
  have hnot : ∀ x, ¬ Merged (replicate f.blocks.length []) x := by
    rintro x ⟨b, hx⟩
    rw [hnone b] at hx
    cases hx
  refine ⟨hshape, ⟨by simp, fun b => by rw [hnone b]; exact nodup_nil, ?_,
    fun x hx => absurd hx (hnot x), fun x hx => absurd hx (hnot x),
    fun x hx => absurd hx (hnot x), fun x hx => absurd hx (hnot x)⟩, fun _ g hg => ?_⟩
  · intro b b' x hx
    exact absurd ⟨b, hx⟩ (hnot x)
  · have hself := compacted_self (f := f) hnone
    exact folds_of_same hg.temps hg.params hg.terminator
      fun b => (hg.stmts b).trans (hself.stmts b).symm

lemma local_ok (hshape : Shape f) (visits : Nat) (worklist : List BlockId) :
    let s := localLoop visits worklist ⟨f, replicate f.blocks.length [], false⟩
    ∃ g, (if s.absorbed.any (!·.isEmpty) then compactMergedStatements s.func s.absorbed
        else .ok s.func) = .ok g ∧ Shape g ∧ (mergedAway s.absorbed 0 = false → Folds f g) := by
  intro s
  have hinv : LocalInv f s := localLoop_sound (localInv_start hshape)
  have hkept : mergedAway s.absorbed 0 = false → ¬ Merged s.absorbed 0 := fun h hmerged =>
    Bool.false_ne_true (h.symm.trans (mergedAway_iff.2 hmerged))
  split
  · obtain ⟨g, hg, hshape', hcompacted⟩ := compactMergedStatements_ok hinv.shape hinv.absorbs
    exact ⟨g, hg, hshape', fun h => hinv.folds (hkept h) g hcompacted⟩
  next hany =>
    refine ⟨s.func, rfl, hinv.shape, fun h => hinv.folds (hkept h) _ (compacted_self fun b => ?_)⟩
    by_contra hb
    refine hany (any_eq_true.2 ⟨s.absorbed.getD b [], ?_, by simpa using hb⟩)
    have hlt : b < s.absorbed.length := by
      by_contra hge
      simp [getElem?_eq_none (not_lt.1 hge)] at hb
    simp [getElem?_eq_getElem hlt]

end Arandu.Mir.SimplifyCfg
