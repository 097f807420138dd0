import Arandu.Wasm.Stackify

/-!
# The layout order and the openings of landings

Moving traps forward keeps every block behind one of its predecessors, so dominators still come
first. A landing is opened at a dominator of a forward predecessor or earlier, hence before its
target.
-/

namespace Arandu.Wasm

open Arandu.Library Arandu.Amir List Dominates Dominators

variable {f : AmirFunc} {rpo : List BlockId} {b x : BlockId} {i fuel cursor : Nat}

/-! ## Orders -/

/-- An order of blocks from the entry in which every other block follows a predecessor. -/
structure Laid (f : AmirFunc) (rpo : List BlockId) : Prop where
  nodup : rpo.Nodup
  head : ∃ rest, rpo = 0 :: rest
  parent : ∀ pre b post, rpo = pre ++ b :: post → b = 0 ∨ ∃ m ∈ pre, b ∈ f.successors m
  bound : ∀ b ∈ rpo, b < f.blocks.length

lemma bodyFirst_eq (hn : 0 < f.blocks.length) : reversePostOrderBodyFirst f =
      dfsOrder f.blocks.length fun b => (f.successors b).reverse := by
  simp [reversePostOrderBodyFirst, rpoTraverse, Nat.ne_of_gt hn]

lemma laid_bodyFirst (hn : 0 < f.blocks.length) : Laid f (reversePostOrderBodyFirst f) := by
  rw [bodyFirst_eq hn]
  refine ⟨dfsOrder_nodup hn, dfsOrder_head hn, ?_, fun b hb => lt_of_mem_dfsOrder hn hb⟩
  intro pre b post heq
  obtain h0 | ⟨m, hm, hsucc⟩ := dfsOrder_parent hn heq
  · exact .inl h0
  · exact .inr ⟨m, hm, mem_reverse.1 hsucc⟩

lemma insertIdx_append (A : List BlockId) (x : BlockId) (Y : List BlockId) :
    (A ++ Y).insertIdx A.length x = A ++ x :: Y := by
  induction A with
  | nil => rfl
  | cons a A ih => exact congrArg (a :: ·) ih

lemma eraseIdx_insertIdx {l : List BlockId} {index : Nat}
    (hx : l[cursor]? = some x) (hle : index ≤ cursor) :
    ∃ A B C, l = A ++ (B ++ x :: C) ∧ A.length = index ∧
      (l.eraseIdx cursor).insertIdx index x = A ++ x :: (B ++ C) := by
  obtain ⟨hlt, hget⟩ := List.getElem?_eq_some_iff.1 hx
  have hlen : (l.take index).length = index := by
    rw [length_take]
    omega
  have htake : l.take cursor = l.take index ++ (l.take cursor).drop index := by
    have : l.take index = (l.take cursor).take index := by
      rw [take_take, Nat.min_eq_left hle]
    rw [this, take_append_drop]
  refine ⟨l.take index, (l.take cursor).drop index, l.drop (cursor + 1), ?_, hlen, ?_⟩
  · rw [← append_assoc, ← htake, ← hget, getElem_cons_drop, take_append_drop]
  have hins := insertIdx_append (l.take index) x ((l.take cursor).drop index ++ l.drop (cursor + 1))
  rw [hlen, ← append_assoc, ← htake] at hins
  rw [eraseIdx_eq_take_drop_succ]
  exact hins

lemma Laid.move (hl : Laid f rpo) {A B C : List BlockId}
    (heq : rpo = A ++ (B ++ x :: C)) (hpred : ∃ m ∈ A, x ∈ f.successors m) :
    Laid f (A ++ x :: (B ++ C)) := by
  have hperm : (A ++ x :: (B ++ C)).Perm rpo := by
    rw [heq]
    exact (perm_middle.symm).append_left A
  refine ⟨hperm.nodup_iff.2 hl.nodup, ?_, ?_, fun b hb => hl.bound b (hperm.mem_iff.1 hb)⟩
  · obtain ⟨m, hm, -⟩ := hpred
    obtain ⟨rest, hhead⟩ := hl.head
    cases A with
    | nil => cases hm
    | cons a A =>
      rw [heq] at hhead
      exact ⟨A ++ x :: (B ++ C), by rw [cons_append, (cons.inj hhead).1]⟩
  · intro pre b post hsplit
    -- the block lies before the moved one, is it, or lies behind it
    rcases append_eq_append_iff.1 hsplit with ⟨D, rfl, hD⟩ | ⟨D, rfl, hD⟩
    · cases D with
      | nil =>
        obtain ⟨rfl, -⟩ := cons.inj hD
        obtain ⟨m, hm, hsucc⟩ := hpred
        exact .inr ⟨m, by rw [append_nil]; exact hm, hsucc⟩
      | cons d D =>
        obtain ⟨rfl, hrest⟩ : x = d ∧ B ++ C = D ++ b :: post := cons.inj hD
        -- the elements before it were there before
        rcases append_eq_append_iff.1 hrest with ⟨D', rfl, hD'⟩ | ⟨D', rfl, hD'⟩
        · have hold := hl.parent (A ++ (B ++ x :: D')) b post (by rw [heq, hD']; simp)
          refine hold.imp_right ?_
          rintro ⟨m, hm, hsucc⟩
          refine ⟨m, ?_, hsucc⟩
          simp only [mem_append, mem_cons] at hm ⊢
          tauto
        · cases D' with
          | nil =>
            rw [nil_append] at hD'
            have hold := hl.parent (A ++ (D ++ [x])) b post (by rw [heq, ← hD']; simp)
            refine hold.imp_right ?_
            rintro ⟨m, hm, hsucc⟩
            refine ⟨m, ?_, hsucc⟩
            simp only [mem_append, mem_cons] at hm ⊢
            tauto
          | cons d' D' =>
            obtain ⟨rfl, rfl⟩ := cons.inj hD'
            have hold := hl.parent (A ++ D) b (D' ++ x :: C) (by rw [heq]; simp)
            refine hold.imp_right ?_
            rintro ⟨m, hm, hsucc⟩
            refine ⟨m, ?_, hsucc⟩
            simp only [mem_append] at hm ⊢
            tauto
    · cases D with
      | nil =>
        obtain ⟨rfl, -⟩ := cons.inj hD
        obtain ⟨m, hm, hsucc⟩ := hpred
        exact .inr ⟨m, by simpa using hm, hsucc⟩
      | cons d D =>
        obtain ⟨rfl, -⟩ := cons.inj hD
        exact hl.parent pre b (D ++ (B ++ x :: C)) (by rw [heq]; simp)

/-! ## Ranks -/

lemma rank_eq_some (hnd : rpo.Nodup) : rank rpo b = some i ↔ rpo[i]? = some b := by
  unfold rank
  constructor
  · intro h
    split at h
    next hb =>
      cases h
      exact getElem?_idxOf hb
    next => cases h
  · intro h
    obtain ⟨hlt, rfl⟩ := List.getElem?_eq_some_iff.1 h
    rw [if_pos (getElem_mem hlt), hnd.idxOf_getElem]

lemma rank_of_drop {rest : List BlockId} (hnd : rpo.Nodup) (h : rpo.drop i = b :: rest) :
    rank rpo b = some i := by
  refine (rank_eq_some hnd).2 ?_
  have := congrArg (·[0]?) h
  rw [getElem?_drop] at this
  exact this

lemma mem_of_rank (h : rank rpo b = some i) : b ∈ rpo := by
  unfold rank at h
  split at h
  next hb => exact hb
  next => cases h

lemma rank_of_mem (h : b ∈ rpo) : ∃ i, rank rpo b = some i :=
  ⟨_, if_pos h⟩

lemma Laid.hoistUnreachable (hcfg : f.CfgCovers) {rpo' : List BlockId}
    (hl : Laid f rpo) (h : hoistUnreachable f fuel rpo cursor = some rpo') : Laid f rpo' := by
  induction fuel generalizing rpo cursor with
  | zero => cases h
  | succ fuel ih =>
    rw [Wasm.hoistUnreachable] at h
    split at h
    · exact Option.some.inj h ▸ hl
    next b hb =>
      split at h
      · split at h
        next index hindex =>
          apply ih _ h
          -- the new place lies behind a predecessor
          have hmem := min?_mem hindex
          obtain ⟨pred, hpred, hjoin⟩ := mem_flatMap.1 hmem
          unfold joinPositions at hjoin
          split at hjoin
          · cases hjoin
          next predIndex hrank =>
            split at hjoin
            · cases hjoin
            obtain ⟨sibling, -, hjoin⟩ := mem_flatMap.1 hjoin
            obtain ⟨block, -, hjoin⟩ := mem_filterMap.1 hjoin
            split at hjoin
            · split at hjoin
              next index' hindex' =>
                split at hjoin
                next hbounds =>
                  cases hjoin
                  obtain ⟨A, B, C, hsplit, hlen, hmove⟩ := eraseIdx_insertIdx hb hbounds.2
                  rw [hmove]
                  refine hl.move hsplit ⟨pred, ?_, (hcfg.mirror pred b).2 hpred⟩
                  have hget := (rank_eq_some hl.nodup).1 hrank
                  rw [hsplit, getElem?_append_left (by omega)] at hget
                  exact mem_of_getElem? hget
                next => cases hjoin
              next => cases hjoin
            · cases hjoin
        next => exact ih hl h
      · exact ih hl h

lemma Laid.walk (hl : Laid f rpo) {pre : List BlockId} {post : List BlockId}
    (heq : rpo = pre ++ b :: post) : ∃ p, Walk f.StoredEdge 0 b p ∧ ∀ x ∈ p, x = b ∨ x ∈ pre := by
  induction hn : pre.length using Nat.strong_induction_on generalizing pre b post with
  | _ n ih =>
    rcases hl.parent pre b post heq with rfl | ⟨m, hm, hsucc⟩
    · exact ⟨[0], .start, fun x hx => .inl (mem_singleton.1 hx)⟩
    obtain ⟨pre₁, post₁, rfl⟩ := append_of_mem hm
    have hm' : rpo = pre₁ ++ m :: (post₁ ++ b :: post) := by
      rw [heq]
      simp
    obtain ⟨p, hp, hsub⟩ := ih pre₁.length (by rw [← hn]; simp) hm' rfl
    have hb : b ∈ rpo := by
      rw [heq]
      simp
    refine ⟨b :: p, .step hp ⟨hsucc, hl.bound b hb⟩, forall_mem_cons.2 ⟨.inl rfl, fun x hx => ?_⟩⟩
    rcases hsub x hx with rfl | hx
    · exact .inr (by simp)
    · exact .inr (by simp [hx])

lemma Laid.dominator_rank (hl : Laid f rpo) {d : BlockId}
    (hb : rank rpo b = some i) (hdom : Dominates f.StoredEdge 0 d b) :
    ∃ j ≤ i, rank rpo d = some j := by
  have hget := (rank_eq_some hl.nodup).1 hb
  obtain ⟨hlt, hget⟩ := List.getElem?_eq_some_iff.1 hget
  have hsplit : rpo = rpo.take i ++ b :: rpo.drop (i + 1) := by
    rw [← hget, getElem_cons_drop, take_append_drop]
  obtain ⟨p, hp, hsub⟩ := hl.walk hsplit
  rcases hsub d (hdom p hp) with rfl | hd
  · exact ⟨i, Nat.le_refl i, hb⟩
  obtain ⟨j, hj, hjd⟩ := getElem_of_mem hd
  have hji : j < i := by
    rw [length_take] at hj
    omega
  refine ⟨j, le_of_lt hji, (rank_eq_some hl.nodup).2 ?_⟩
  rw [getElem_take] at hjd
  rw [getElem?_eq_getElem (by omega), hjd]

/-! ## Openings -/

lemma hoistRound_le (earlier loops : List (BlockId × Nat)) (finish start : Nat) :
    hoistRound rpo earlier loops finish start ≤ start := by
  have hstep {α : Type} (l : List α) (g : Nat → α → Nat) (hg : ∀ s x, g s x ≤ s) (s : Nat) :
      l.foldl g s ≤ s := by
    induction l generalizing s with
    | nil => exact Nat.le_refl s
    | cons x l ih => exact (ih (g s x)).trans (hg s x)
  refine (hstep _ _ ?_ _).trans (hstep _ _ ?_ _)
  · intro s x
    dsimp only
    split
    next h => exact h.1
    next => exact Nat.le_refl s
  · intro s x
    split
    next h => exact le_of_lt h.1
    next => exact Nat.le_refl s

lemma hoistStart_le (earlier loops : List (BlockId × Nat)) (finish fuel start : Nat) :
    hoistStart rpo earlier loops finish fuel start ≤ start := by
  induction fuel generalizing start with
  | zero => exact Nat.le_refl start
  | succ fuel ih =>
    rw [hoistStart]
    split
    · exact Nat.le_refl start
    · exact (ih _).trans (hoistRound_le earlier loops finish start)

lemma mem_forwardPreds {t p : BlockId} : p ∈ forwardPreds f rpo t ↔
      p ∈ rpo ∧ t ∈ f.successors p ∧ (rank rpo p).getD 0 < (rank rpo t).getD 0 := by
  unfold forwardPreds forwardTargets
  simp only [mem_flatMap, mem_map, mem_filter, decide_eq_true_eq]
  constructor
  · rintro ⟨b, hb, x, ⟨⟨hx, hlt⟩, rfl⟩, rfl⟩
    exact ⟨hb, hx, hlt⟩
  · rintro ⟨hp, ht, hlt⟩
    exact ⟨p, hp, t, ⟨⟨ht, hlt⟩, rfl⟩, rfl⟩

section Dominators

variable {doms : Dominators} (hcfg : f.CfgCovers) (hdoms : new f = some doms)
  (hn : 0 < f.blocks.length)

include hcfg hdoms hn

lemma ancestors_dominate {a : BlockId} (h : a ∈ ancestors doms fuel b) :
    Dominates f.StoredEdge 0 a b := by
  obtain ⟨idoms, htable, hnew⟩ := exists_new hn hcfg.mirror
  cases hnew.symm.trans hdoms
  induction fuel generalizing b with
  | zero =>
    rw [mem_singleton.1 h]
    exact refl b
  | succ fuel ih =>
    rw [ancestors] at h
    split at h
    next idom hidom =>
      split at h
      next =>
        rw [mem_singleton.1 h]
        exact refl b
      next =>
        rcases mem_cons.1 h with rfl | h
        · exact refl a
        refine (ih h).trans (htable.ancestor_dominates hcfg.mirror ?_)
        unfold immediateDominator at hidom
        split at hidom
        · exact .up hidom (.refl idom)
        · cases hidom
    next =>
      rw [mem_singleton.1 h]
      exact refl b

lemma ncdPair_dominates (a b : BlockId) :
    ncdPair doms a b = a ∨ Dominates f.StoredEdge 0 (ncdPair doms a b) b := by
  unfold ncdPair
  split
  · exact .inl rfl
  · cases hfind : (ancestors doms doms.count b).find? fun x =>
        decide (x ∈ ancestors doms doms.count a) with
    | none => exact .inl rfl
    | some x => exact .inr (ancestors_dominate hcfg hdoms hn (mem_of_find?_eq_some hfind))

lemma ncdOf_dominates {t ncd : BlockId} (h : ncdOf f doms rpo t = some ncd) :
    ∃ p ∈ forwardPreds f rpo t, Dominates f.StoredEdge 0 ncd p := by
  unfold ncdOf at h
  split at h
  · cases h
  next p ps hps =>
    obtain rfl := Option.some.inj h
    rw [hps]
    -- by induction over the predecessors that are folded in
    have hfold : ∀ (ps : List BlockId) (a q : BlockId), Dominates f.StoredEdge 0 a q →
        ∃ p ∈ q :: ps, Dominates f.StoredEdge 0 (ps.foldl (ncdPair doms) a) p := by
      intro ps
      induction ps with
      | nil => exact fun a q haq => ⟨q, mem_cons_self, haq⟩
      | cons r ps ih =>
        intro a q haq
        rw [foldl_cons]
        rcases ncdPair_dominates hcfg hdoms hn a r with heq | hdom
        · rw [heq]
          obtain ⟨p, hp, hdom⟩ := ih a q haq
          refine ⟨p, ?_, hdom⟩
          rcases mem_cons.1 hp with rfl | hp
          · exact mem_cons_self
          · exact mem_cons_of_mem _ (mem_cons_of_mem _ hp)
        · obtain ⟨p, hp, hdom⟩ := ih _ r hdom
          exact ⟨p, mem_cons_of_mem _ hp, hdom⟩
    exact hfold ps p p (refl p)

lemma ncdOf_rank (hl : Laid f rpo) {t ncd : BlockId} (h : ncdOf f doms rpo t = some ncd) :
    ∃ r, rank rpo t = some r ∧ (rank rpo ncd).getD 0 < r := by
  obtain ⟨p, hp, hdom⟩ := ncdOf_dominates hcfg hdoms hn h
  obtain ⟨hmem, -, hlt⟩ := mem_forwardPreds.1 hp
  obtain ⟨i, hi⟩ := rank_of_mem hmem
  obtain ⟨j, hji, hj⟩ := hl.dominator_rank hi hdom
  rw [hi] at hlt
  cases ht : rank rpo t with
  | none =>
    rw [ht] at hlt
    exact absurd hlt (Nat.not_lt_zero _)
  | some r =>
    rw [ht] at hlt
    refine ⟨r, rfl, ?_⟩
    rw [hj]
    exact lt_of_le_of_lt hji hlt

/-- Every landing added along the order starts before its block. -/
lemma scopeStarts_fold_lt (hl : Laid f rpo) {loops : List (BlockId × Nat)} (l : List BlockId)
    (starts : List (BlockId × Nat)) (hs : ∀ ts ∈ starts, ∃ r, rank rpo ts.1 = some r ∧ ts.2 < r) :
    ∀ ts ∈ l.foldl (fun starts t =>
        match ncdOf f doms rpo t with
        | none => starts
        | some ncd =>
          let start := (rank rpo ncd).getD 0
          starts ++ [(t, hoistStart rpo starts loops ((rank rpo t).getD 0) (start + 1) start)])
      starts, ∃ r, rank rpo ts.1 = some r ∧ ts.2 < r := by
  induction l generalizing starts with
  | nil => exact hs
  | cons t l ih =>
    rw [foldl_cons]
    apply ih
    split
    · exact hs
    next ncd hncd =>
      intro ts hts
      rcases mem_append.1 hts with hts | hts
      · exact hs ts hts
      · obtain rfl := mem_singleton.1 hts
        obtain ⟨r, hr, hlt⟩ := ncdOf_rank hcfg hdoms hn hl hncd
        exact ⟨r, hr, lt_of_le_of_lt (hoistStart_le _ _ _ _ _) hlt⟩

lemma scopeStarts_lt (hl : Laid f rpo) {loops : List (BlockId × Nat)} {ts : BlockId × Nat}
    (h : ts ∈ scopeStarts f doms rpo loops) : ∃ r, rank rpo ts.1 = some r ∧ ts.2 < r :=
  scopeStarts_fold_lt hcfg hdoms hn hl rpo [] (by simp) ts h

end Dominators

end Arandu.Wasm
