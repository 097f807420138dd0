import Arandu.Mir.SimplifyCfg.Pass

/-!
# Incremental edge updates

Threading a block and merging two blocks update the stored edge lists in place. Both
updates keep the lists exact (`AmirFunc.CfgExact`): afterwards they hold the edges of the
new terminators, with multiplicity, although the predecessors may come in another order
than `computeCfgEdges` would list them in.
-/

namespace Arandu.Mir.SimplifyCfg

open Arandu.Amir Arandu.Library List AmirFunc AmirTerminator

variable {f : AmirFunc}

/-! ## Replacing a terminator -/

@[simp] lemma setTerminator_length (b : BlockId) (term : AmirTerminator) :
    (setTerminator f b term).blocks.length = f.blocks.length := by
  simp [setTerminator]

section

variable {b : BlockId} (hb : b < f.blocks.length) (term : AmirTerminator)
include hb term

lemma block_setTerminator (x : BlockId) : (setTerminator f b term).block x =
      if x = b then { f.block b with terminator := term } else f.block x := by
  simp only [setTerminator, block]
  by_cases hx : x = b
  · subst hx
    simp [hb]
  · simp [hx, Ne.symm hx]

lemma terminator_setTerminator (x : BlockId) : ((setTerminator f b term).block x).terminator =
      if x = b then term else (f.block x).terminator := by
  rw [block_setTerminator hb]
  split <;> rfl

lemma statements_setTerminator (x : BlockId) :
    ((setTerminator f b term).block x).statements = (f.block x).statements := by
  rw [block_setTerminator hb]
  split
  next h => rw [h]
  · rfl

lemma params_setTerminator (x : BlockId) :
    ((setTerminator f b term).block x).params = (f.block x).params := by
  rw [block_setTerminator hb]
  split
  next h => rw [h]
  · rfl

end

/-! ## Threading -/

/-- The function after `bid` was threaded from `target` to `dest`. -/
def threaded (f : AmirFunc) (bid target dest : BlockId) : AmirFunc :=
  { setTerminator f bid (.goto dest []) with
    cfg := (retargetSuccessor f.cfg bid target dest).2 }

lemma retarget_lists (hexact : f.CfgExact) {bid target : BlockId} (dest : BlockId)
    (hterm : (f.block bid).terminator = .goto target []) :
    (retargetSuccessor f.cfg bid target dest).2 =
      { successors := f.cfg.successors.set bid [dest]
        predecessors := (f.cfg.predecessors.modify target (·.filter (· != bid))).modify dest
          (· ++ [bid]) } := by
  have hsucc : f.cfg.successors.getD bid [] = [target] := by
    have := hexact.succs bid
    rwa [hterm] at this
  simp only [retargetSuccessor, hsucc]
  simp

lemma cfgExact_threaded (hexact : f.CfgExact) {bid target dest : BlockId}
    (hbid : bid < f.blocks.length) (htarget : target < f.blocks.length)
    (hdest : dest < f.blocks.length) (hterm : (f.block bid).terminator = .goto target [])
    (hne : dest ≠ target) : (threaded f bid target dest).CfgExact := by
  have hlists := retarget_lists hexact dest hterm
  refine ⟨?_, ?_, ?_, ?_⟩
  · simp [threaded, hlists, hexact.succLength]
  · simp [threaded, hlists, hexact.predLength]
  · intro b
    have hblock : ((threaded f bid target dest).block b).terminator =
        if b = bid then .goto dest [] else (f.block b).terminator :=
      terminator_setTerminator hbid _ b
    rw [hblock]
    simp only [successors, threaded, hlists]
    by_cases hb : b = bid
    · subst hb
      have hlen : b < f.cfg.successors.length := hexact.succLength ▸ hbid
      simp [hlen, targets]
    · rw [if_neg hb, ← hexact.succs b]
      simp [successors, getElem?_set_ne (Ne.symm hb)]
  · intro m n
    have hblock : ((threaded f bid target dest).block m).terminator =
        if m = bid then .goto dest [] else (f.block m).terminator :=
      terminator_setTerminator hbid _ m
    rw [hblock]
    have hold := hexact.preds m n
    have hpreds : (threaded f bid target dest).predecessors n =
        (if n = target then (f.predecessors n).filter (· != bid) else f.predecessors n) ++
          if n = dest then [bid] else [] := by
      simp only [predecessors, threaded, hlists]
      have htl : target < f.cfg.predecessors.length := hexact.predLength ▸ htarget
      have hdl : dest < f.cfg.predecessors.length := hexact.predLength ▸ hdest
      by_cases hnt : n = target
      · subst hnt
        have hnd : n ≠ dest := Ne.symm hne
        simp [htl, hnd, Ne.symm hnd]
      · by_cases hnd : n = dest
        · subst hnd
          simp [hdl, hnt, Ne.symm hnt]
        · simp [hnt, hnd, Ne.symm hnt, Ne.symm hnd]
    rw [hpreds, count_append]
    by_cases hm : m = bid
    · -- the threaded block itself: its one edge moved from `target` to `dest`
      subst hm
      rw [hterm] at hold
      have hfilter : ((f.predecessors n).filter (· != m)).count m = 0 := by
        rw [count_eq_zero]
        simp
      simp only [targets] at hold ⊢
      by_cases hnt : n = target
      · subst hnt
        simp [hfilter, hne, Ne.symm hne]
      · by_cases hnd : n = dest
        · subst hnd
          simp [hnt, hold, Ne.symm hnt]
        · simp [hnt, hnd, hold, Ne.symm hnt, Ne.symm hnd]
    · rw [if_neg hm, ← hold]
      have hdrop : (if n = dest then [bid] else []).count m = 0 := by
        split <;> simp [Ne.symm hm]
      rw [hdrop, Nat.add_zero]
      split
      · rw [count_filter (by simp [hm])]
      · rfl

/-! ## Merging -/

section

variable (moved : List BlockId) (preds : List (List BlockId))

/-- What transferring edges does to the lists of predecessors. -/
def transferred (into src : BlockId) : List (List BlockId) :=
  moved.foldl (fun preds s => preds.modify s fun ps => ps.filter (· != src) ++ [into]) preds

/-- Transferring edges, list by list: every successor of `src` loses `src` and gains `into`
once per edge. -/
lemma count_transfer (into src m n : BlockId) (hlen : ∀ s ∈ moved, s < preds.length)
    (hm : m ≠ src) : ((transferred moved preds into src).getD n []).count m =
      (preds.getD n []).count m + if m = into then moved.count n else 0 := by
  unfold transferred
  induction moved generalizing preds with
  | nil => simp
  | cons s ss ih =>
    have hs : s < preds.length := hlen s mem_cons_self
    rw [foldl_cons, ih _ fun t ht => by simpa using hlen t (mem_cons_of_mem _ ht)]
    have hmod : ((preds.modify s fun ps => ps.filter (· != src) ++ [into]).getD n []).count m =
        (preds.getD n []).count m + if m = into ∧ s = n then 1 else 0 := by
      by_cases hsn : s = n
      · subst hsn
        have hkeep : ((preds[s]).filter (· != src)).count m = (preds[s]).count m :=
          count_filter (by simp [hm])
        by_cases hmi : m = into
        · subst hmi
          simp [hs, hkeep]
        · simp [hs, hkeep, hmi, Ne.symm hmi]
      · simp [List.getD, hsn]
    rw [hmod, count_cons]
    by_cases hmi : m = into
    · by_cases hsn : s = n
      · simp [hmi]
        omega
      · simp [hmi, hsn]
    · simp [hmi]

lemma length_transfer (into src : BlockId) :
    (transferred moved preds into src).length = preds.length := by
  unfold transferred
  induction moved generalizing preds with
  | nil => rfl
  | cons s ss ih => rw [foldl_cons, ih, length_modify]

lemma count_transfer_src {into src n : BlockId} (hne : into ≠ src)
    (hn : n ∈ moved ∨ (preds.getD n []).count src = 0) :
    ((transferred moved preds into src).getD n []).count src = 0 := by
  induction moved generalizing preds with
  | nil => simpa [transferred] using hn
  | cons s ss ih =>
    refine ih _ ?_
    by_cases hsn : s = n
    · -- filtered out here, and never pushed again
      subst hsn
      by_cases hs : s < preds.length
      · have hfilter : ((preds[s]).filter (· != src)).count src = 0 := by
          rw [count_eq_zero]
          simp
        simp [hs, hne, hfilter]
      · simp [getElem?_eq_none (not_lt.1 hs)]
    · rcases hn with hmem | hzero
      · rcases mem_cons.1 hmem with rfl | hmem
        · exact absurd rfl hsn
        · exact .inl hmem
      · exact .inr (by simpa [hsn] using hzero)

end

lemma mergeTwoBlocks_terminator {into src : BlockId} (hinto : into < f.blocks.length)
    (hsrc : src < f.blocks.length) (absorbed : Absorbed) (x : BlockId) :
    ((mergeTwoBlocks f into src absorbed).1.block x).terminator =
      if x = into then (f.block src).terminator
      else if x = src then .unreachable else (f.block x).terminator := by
  have houter := terminator_setTerminator (f := setTerminator f src .unreachable)
    (by simpa using hinto) (f.block src).terminator x
  rw [terminator_setTerminator hsrc] at houter
  exact houter

lemma cfgExact_mergeTwoBlocks (hexact : f.CfgExact) {into src : BlockId}
    (htargets : ∀ m n, f.Edge m n → n < f.blocks.length) (hinto : into < f.blocks.length)
    (hsrc : src < f.blocks.length) (hne : into ≠ src)
    (hterm : (f.block into).terminator = .goto src []) (hpred : f.predecessors src = [into])
    (absorbed : Absorbed) : (mergeTwoBlocks f into src absorbed).1.CfgExact := by
  have hsucc : f.cfg.successors.getD src [] = (f.block src).terminator.targets := hexact.succs src
  -- once its edges are transferred, clearing `src` only empties its own lists
  have hcleared : (f.cfg.successors.set src []).set into (f.block src).terminator.targets =
      (f.cfg.successors.set into (f.block src).terminator.targets).set src [] :=
    set_comm _ _ (Ne.symm hne)
  have hcfg : (mergeTwoBlocks f into src absorbed).1.cfg =
      { successors := (f.cfg.successors.set into (f.block src).terminator.targets).set src []
        predecessors :=
          (transferred (f.block src).terminator.targets f.cfg.predecessors into src).set
          src [] } := by
    have hsl : src < f.cfg.successors.length := hexact.succLength ▸ hsrc
    simp only [mergeTwoBlocks, clearBlock, transferEdges, hsucc, hcleared, transferred]
    have hnil : ((f.cfg.successors.set into (f.block src).terminator.targets).set src
        ([] : List BlockId)).getD src [] = [] := by
      simp [hsl]
    rw [hnil, foldl_nil, set_set]
  refine ⟨?_, ?_, ?_, ?_⟩
  · rw [hcfg]
    simp [mergeTwoBlocks, hexact.succLength]
  · rw [hcfg]
    simp [mergeTwoBlocks, length_transfer, hexact.predLength]
  · intro b
    rw [mergeTwoBlocks_terminator hinto hsrc, successors, hcfg]
    have hil : into < f.cfg.successors.length := hexact.succLength ▸ hinto
    have hsl : src < f.cfg.successors.length := hexact.succLength ▸ hsrc
    by_cases hbs : b = src
    · subst hbs
      simp [hsl, Ne.symm hne, targets]
    by_cases hbi : b = into
    · subst hbi
      simp [hil, Ne.symm hbs]
    · rw [if_neg hbi, if_neg hbs, ← hexact.succs b]
      simp [successors, Ne.symm hbs, Ne.symm hbi]
  · intro m n
    rw [mergeTwoBlocks_terminator hinto hsrc, predecessors, hcfg]
    have hpl : src < f.cfg.predecessors.length := hexact.predLength ▸ hsrc
    have hrange : ∀ s ∈ (f.block src).terminator.targets, s < f.cfg.predecessors.length :=
      fun s hs => hexact.predLength ▸ htargets src s hs
    -- only `into` has an edge to `src`
    have honly : ∀ x, (f.block x).terminator.targets.count src = if x = into then 1 else 0 := by
      intro x
      rw [← hexact.preds, hpred]
      by_cases hx : x = into
      · simp [hx]
      · simp [hx, Ne.symm hx]
    by_cases hns : n = src
    · subst hns
      have hzero : ∀ x, x ≠ into → (f.block x).terminator.targets.count n = 0 := by
        intro x hx
        rw [honly, if_neg hx]
      have hlist : ((transferred (f.block n).terminator.targets f.cfg.predecessors into n).set n
          []).getD n [] = [] := by
        simp [length_transfer, hpl]
      rw [hlist, count_nil]
      by_cases hmi : m = into
      · rw [if_pos hmi, hzero n (Ne.symm hne)]
      rw [if_neg hmi]
      by_cases hmn : m = n
      · rw [if_pos hmn]
        rfl
      · rw [if_neg hmn, hzero m hmi]
    · have hlist : ((transferred (f.block src).terminator.targets f.cfg.predecessors into src).set
          src []).getD n [] =
          (transferred (f.block src).terminator.targets f.cfg.predecessors into src).getD n [] := by
        simp [Ne.symm hns]
      rw [hlist]
      have hold := hexact.preds m n
      by_cases hms : m = src
      · subst hms
        rw [if_neg (Ne.symm hne), if_pos rfl]
        refine count_transfer_src _ _ hne ?_
        by_cases hmem : n ∈ (f.block m).terminator.targets
        · exact .inl hmem
        · refine .inr ?_
          rw [count_eq_zero.2 hmem] at hold
          exact hold
      · rw [count_transfer _ _ _ _ _ _ hrange hms]
        have hold' : (f.cfg.predecessors.getD n []).count m =
            (f.block m).terminator.targets.count n := hold
        rw [hold']
        by_cases hmi : m = into
        · subst hmi
          simp [hterm, targets, Ne.symm hns]
        · simp [hmi, hms]

end Arandu.Mir.SimplifyCfg
