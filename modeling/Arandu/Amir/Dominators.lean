import Arandu.Amir.Cfg
import Arandu.Library.DominatorComplete
import Arandu.Library.TreeNumbering

/-!
# Dominators of a function

`Dominators.new` builds the dominator tree over the stored edge lists and numbers it, so
that `dominates` is two comparisons. The construction always succeeds on mirrored edge
lists, and what it answers is dominance along the terminator edges.
-/

namespace Arandu.Amir

open Arandu.Library List Option

/-- Immediate dominators of `count` blocks and the numbering of their tree. -/
structure Dominators where
  count : Nat
  idoms : BlockId → Option BlockId
  numbering : Numbering

namespace Dominators

/-- Position of a block in post-order; `0` for unreachable blocks. -/
def postOrderIndex (postOrder : List BlockId) (b : BlockId) : Nat :=
  if b ∈ postOrder then postOrder.idxOf b else 0

/-- Before the first sweep only the entry has a dominator, itself. -/
def entryOnly (b : BlockId) : Option BlockId := if b = 0 then some 0 else none

/-- The number of sweeps granted to the iteration; `idoms_of_mirror` shows that it is enough. -/
def sweepLimit (n : Nat) : Nat := n * (n + 1) + 1

def computeIdoms (f : AmirFunc) : Option (BlockId → Option BlockId) :=
  let fullRpo := reversePostOrder f
  solve f.predecessors (postOrderIndex fullRpo.reverse) (2 * f.blocks.length)
    (fullRpo.erase 0) (sweepLimit f.blocks.length) entryOnly

/-- `none` would be a sweep that never settles or an `intersect` that
meets a block without dominator. -/
def new (f : AmirFunc) : Option Dominators :=
  if f.blocks.length = 0 then some ⟨0, fun _ => none, .start⟩
  else (computeIdoms f).map fun idoms =>
    { count := f.blocks.length
      idoms := idoms
      numbering := if (idoms 0).isSome then numberTree f.blocks.length idoms else .start }

def immediateDominator (d : Dominators) (block : BlockId) : Option BlockId :=
  if block < d.count then d.idoms block else none

def dominates (d : Dominators) (a b : BlockId) : Bool :=
  if a = b then true
  else if d.count ≤ a ∨ d.count ≤ b then false
  else if (d.idoms a).isNone ∨ (d.idoms b).isNone then false
  else d.numbering.pre a ≤ d.numbering.pre b && d.numbering.post b ≤ d.numbering.post a

end Dominators

/-! ## The sweep order -/

namespace AmirFunc

/-- Stored edges between existing blocks. -/
def StoredEdge (f : AmirFunc) : BlockId → BlockId → Prop :=
  DfsEdge f.blocks.length f.successors

lemma edge_stored {f : AmirFunc} (hcfg : f.CfgCovers)
    (htargets : ∀ m n, f.Edge m n → n < f.blocks.length) (m n : BlockId) (h : f.Edge m n) :
    f.StoredEdge m n :=
  ⟨hcfg.covers m n h, htargets m n h⟩

end AmirFunc

namespace Dominators

variable {f : AmirFunc}

lemma reversePostOrder_eq (hn : 0 < f.blocks.length) :
    reversePostOrder f = dfsOrder f.blocks.length f.successors := by
  simp [reversePostOrder, rpoTraverse, Nat.ne_of_gt hn]

lemma pairwise_postOrderIndex {l order : List BlockId} (hnodup : l.Nodup) (heq : l = order) :
    order.Pairwise fun a b => postOrderIndex l.reverse b < postOrderIndex l.reverse a := by
  subst heq
  rw [pairwise_iff_getElem]
  intro i j hi hj hlt
  have hidx : ∀ k (hk : k < l.length), postOrderIndex l.reverse l[k] = l.length - 1 - k := by
    intro k hk
    have hk' : l.length - 1 - k < l.reverse.length := by
      rw [length_reverse]
      omega
    have hget : l.reverse[l.length - 1 - k] = l[k] := by
      rw [getElem_reverse]
      congr 1
      omega
    have hmem : l[k] ∈ l.reverse := mem_reverse.2 (getElem_mem hk)
    rw [postOrderIndex, if_pos hmem, ← hget]
    exact (nodup_reverse.2 hnodup).idxOf_getElem _ _
  rw [hidx i hi, hidx j hj]
  omega

lemma postOrderIndex_le (l : List BlockId) (b : BlockId) : postOrderIndex l b ≤ l.length := by
  unfold postOrderIndex
  split
  · exact idxOf_le_length
  · exact Nat.zero_le _

section

variable (hn : 0 < f.blocks.length)
include hn

lemma rpo_eq_cons : reversePostOrder f = 0 :: (reversePostOrder f).erase 0 := by
  obtain ⟨rest, hrest⟩ := dfsOrder_head hn
  rw [reversePostOrder_eq hn, hrest]
  simp

lemma mem_reversePostOrder {b : BlockId} : b ∈ reversePostOrder f ↔ Reachable f.StoredEdge 0 b := by
  rw [reversePostOrder_eq hn]
  exact mem_dfsOrder hn

lemma lt_of_storedReachable {b : BlockId} (hb : Reachable f.StoredEdge 0 b) : b < f.blocks.length :=
  lt_of_mem_dfsOrder hn ((mem_dfsOrder hn).2 hb)

lemma rpo_length_le : (reversePostOrder f).length ≤ f.blocks.length := by
  have hnodup : (dfsOrder f.blocks.length f.successors).Nodup := dfsOrder_nodup hn
  rw [reversePostOrder_eq hn]
  have hsub : dfsOrder f.blocks.length f.successors ⊆ List.range f.blocks.length :=
    fun x hx => mem_range.2 (lt_of_mem_dfsOrder hn hx)
  simpa using (hnodup.subperm hsub).length_le

lemma sweepOrder (hmirror : ∀ m n, n ∈ f.successors m ↔ m ∈ f.predecessors n) :
    SweepOrder f.predecessors (postOrderIndex (reversePostOrder f).reverse) f.blocks.length
      ((reversePostOrder f).erase 0) where
  sorted := by
    have hnodup : (reversePostOrder f).Nodup := reversePostOrder_eq hn ▸ dfsOrder_nodup hn
    exact pairwise_postOrderIndex hnodup (rpo_eq_cons hn)
  bounded := by
    refine (postOrderIndex_le _ _).trans ?_
    rw [length_reverse]
    exact rpo_length_le hn
  forward := by
    intro b hb
    have hnodup : (reversePostOrder f).Nodup := reversePostOrder_eq hn ▸ dfsOrder_nodup hn
    have hmem : b ∈ reversePostOrder f := mem_of_mem_erase hb
    obtain ⟨pre, post, heq⟩ := append_of_mem hmem
    rcases dfsOrder_parent hn (reversePostOrder_eq hn ▸ heq) with rfl | ⟨m, hm, hsucc⟩
    · exact absurd hb hnodup.not_mem_erase
    refine ⟨m, (hmirror m b).1 hsucc, ?_, ?_⟩
    · rw [← rpo_eq_cons hn, heq]
      exact mem_append_left _ hm
    · have hpair := pairwise_postOrderIndex hnodup heq
      exact (pairwise_append.1 hpair).2.2 m hm b mem_cons_self

end

lemma sweepInv_start (rest : List BlockId) (rank : BlockId → Nat)
    (preds : BlockId → List BlockId) : SweepInv preds rank rest rest entryOnly := by
  have hentry : ∀ x u, entryOnly x = some u → x = 0 ∧ u = 0 := by
    intro x u hu
    unfold entryOnly at hu
    split at hu
    next hx => exact ⟨hx, (some.inj hu).symm⟩
    · cases hu
  constructor
  · refine ⟨rfl, fun {x u} hu hx => absurd (hentry x u hu).1 hx, fun {x u} hu => ?_⟩
    rw [(hentry x u hu).2]
    rfl
  · intro x hx
    obtain ⟨u, hu⟩ := isSome_iff_exists.1 hx
    exact (hentry x u hu).1 ▸ mem_cons_self
  · exact forall_mem_cons.2 ⟨fun _ => rfl, fun x hx hnot => absurd hx hnot⟩
  · exact fun x u hu hx => absurd (hentry x u hu).1 hx
  · exact fun x u hu hx => absurd (hentry x u hu).1 hx

/-! ## The construction succeeds -/

structure IsIdomTable (f : AmirFunc) (idoms : BlockId → Option BlockId) : Prop where
  tree : ∃ rank, RankedTree rank idoms ∧ ∀ x, (idoms x).isSome → rank x ≤ f.blocks.length
  known : ∀ x, (idoms x).isSome ↔ Reachable f.StoredEdge 0 x
  meet : ∀ b, Reachable f.StoredEdge 0 b → b ≠ 0 →
    ∃ w, idoms b = some w ∧ IsMeet idoms (f.predecessors b) w
  complete : ∀ x, (idoms x).isSome → ∀ a, Dominates f.StoredEdge 0 a x → Ancestor idoms a x

lemma domInv_start (edge : BlockId → BlockId → Prop) : DomInv edge entryOnly := by
  constructor
  · intro x hx a ha
    unfold entryOnly at hx
    split at hx
    next hx0 =>
      rw [hx0] at ha
      rw [hx0, ha.eq_entry]
      exact .refl 0
    · cases hx
  · intro x u hu
    unfold entryOnly at hu
    split at hu
    next hx0 =>
      rw [hx0, ← some.inj hu]
      exact .start
    · cases hu

section

variable (hn : 0 < f.blocks.length) (hmirror : ∀ m n, n ∈ f.successors m ↔ m ∈ f.predecessors n)
include hn hmirror

lemma idoms_of_mirror : ∃ idoms, computeIdoms f = some idoms ∧ IsIdomTable f idoms := by
  have horder := sweepOrder hn hmirror
  have hlen : ((reversePostOrder f).erase 0).length ≤ f.blocks.length :=
    (length_erase_le ..).trans (rpo_length_le hn)
  have hcost : parentCost (postOrderIndex (reversePostOrder f).reverse) f.blocks.length
      ((reversePostOrder f).erase 0) entryOnly < sweepLimit f.blocks.length := by
    have hgap : ∀ y ∈ ((reversePostOrder f).erase 0).map fun x =>
        rankGap (postOrderIndex (reversePostOrder f).reverse) f.blocks.length (entryOnly x),
        y ≤ f.blocks.length + 1 := by
      intro y hy
      obtain ⟨x, -, rfl⟩ := mem_map.1 hy
      cases entryOnly x with
      | none => exact le_rfl
      | some u => exact Nat.le_succ_of_le (Nat.sub_le _ _)
    have hsum := sum_le_card_nsmul _ _ hgap
    rw [length_map] at hsum
    exact Nat.lt_succ_of_le (hsum.trans (Nat.mul_le_mul_right _ hlen))
  have hkept : KeptBySweeps f.predecessors (postOrderIndex (reversePostOrder f).reverse)
      ((reversePostOrder f).erase 0) (DomInv f.StoredEdge) := by
    intro parent b w todo hinv hat hmeet h
    refine h.step horder (fun b hb p hp => ⟨(hmirror p b).2 hp, ?_⟩) hinv hat hmeet
    exact lt_of_storedReachable hn ((mem_reversePostOrder hn).1 (mem_of_mem_erase hb))
  obtain ⟨idoms, hsolve, hinv, hdom, hmeet⟩ :=
    solve_spec horder hkept (sweepInv_start _ _ _) (domInv_start _) hcost
  have hnodes : ∀ x, x ∈ 0 :: (reversePostOrder f).erase 0 ↔ Reachable f.StoredEdge 0 x := by
    intro x
    rw [← rpo_eq_cons hn]
    exact mem_reversePostOrder hn
  refine ⟨idoms, hsolve, ⟨_, hinv.tree, ?_⟩, ?_, ?_, hdom.complete⟩
  · exact fun x hx => horder.rank_le_bound (hinv.nodes x hx)
  · exact fun x => ⟨fun hx => (hnodes x).1 (hinv.nodes x hx),
      fun hx => hinv.swept x ((hnodes x).2 hx) not_mem_nil⟩
  · intro b hb hb0
    rcases mem_cons.1 ((hnodes b).2 hb) with h0 | hrest
    · exact absurd h0 hb0
    · exact hmeet b hrest

lemma exists_new : ∃ idoms, IsIdomTable f idoms ∧
      new f = some ⟨f.blocks.length, idoms, numberTree f.blocks.length idoms⟩ := by
  obtain ⟨idoms, hidoms, htable⟩ := idoms_of_mirror hn hmirror
  have hroot : (idoms 0).isSome := (htable.known 0).2 Reachable.start
  exact ⟨idoms, htable, by simp [new, Nat.ne_of_gt hn, hidoms, hroot]⟩

end

/-! ## What it answers is dominance -/

section Sound

variable (hmirror : ∀ m n, n ∈ f.successors m ↔ m ∈ f.predecessors n)
  {idoms : BlockId → Option BlockId} {d : Dominators}

include hmirror

variable {b : BlockId} {a : BlockId}

lemma IsIdomTable.ancestor_dominates
    (h : IsIdomTable f idoms) (hab : Ancestor idoms a b) :
    Dominates f.StoredEdge 0 a b := by
  obtain ⟨rank, htree, -⟩ := h.tree
  refine hab.dominates htree.root ?_
  intro m n hm hmn hn0
  obtain ⟨w, hw, hmeet⟩ := h.meet n (hm.step hmn) hn0
  exact ⟨w, hw, hmeet.ancestor m ((hmirror m n).1 hmn.1) ((h.known m).2 hm)⟩

lemma dominates_sound (hd : new f = some d)
    (hab : d.dominates a b = true) : Dominates f.StoredEdge 0 a b := by
  by_cases heq : a = b
  · exact heq ▸ Dominates.refl a
  by_cases hn : f.blocks.length = 0
  · simp only [new, hn, if_pos, some.injEq] at hd
    subst hd
    simp [dominates, heq] at hab
  have hpos := Nat.pos_of_ne_zero hn
  obtain ⟨idoms, htable, hnew⟩ := exists_new hpos hmirror
  cases hnew.symm.trans hd
  obtain ⟨rank, htree, hbound⟩ := htable.tree
  unfold dominates at hab
  rw [if_neg heq] at hab
  split at hab
  · cases hab
  split at hab
  · cases hab
  next hknown =>
  simp only [not_or, isNone_iff_eq_none, ← isSome_iff_ne_none] at hknown
  simp only [Bool.and_eq_true, decide_eq_true_eq] at hab
  have hlt : ∀ y, (idoms y).isSome → ∀ x, Ancestor idoms x y → x < f.blocks.length := by
    intro y hy x hx
    exact lt_of_storedReachable hpos ((htable.known x).1 (htree.isSome_of_ancestor hx hy))
  exact htable.ancestor_dominates hmirror
    (ancestor_of_nested hpos htree.root (htree.root_ancestor hbound hknown.1)
      (htree.root_ancestor hbound hknown.2) (hlt a hknown.1) (hlt b hknown.2) hab.1 hab.2)

lemma dominates_complete (hd : new f = some d) (hn : 0 < f.blocks.length)
    (hb : Reachable f.StoredEdge 0 b) (hab : Dominates f.StoredEdge 0 a b) :
    d.dominates a b = true := by
  obtain ⟨idoms, htable, hnew⟩ := exists_new hn hmirror
  cases hnew.symm.trans hd
  obtain ⟨rank, htree, hbound⟩ := htable.tree
  have hknown : ∀ x, Reachable f.StoredEdge 0 x → (idoms x).isNone = false := fun x hx => by
    simpa using (htable.known x).2 hx
  have ha : Reachable f.StoredEdge 0 a := hab.reachable hb
  have hbk : (idoms b).isSome := (htable.known b).2 hb
  have hnested := nested_of_ancestor hn htree.root (htree.root_ancestor hbound hbk)
    (fun x hx => lt_of_storedReachable hn ((htable.known x).1 (htree.isSome_of_ancestor hx hbk)))
    (htable.complete b hbk a hab)
  unfold dominates
  split
  · rfl
  · simp [hknown b hb, hknown a ha, lt_of_storedReachable hn ha, lt_of_storedReachable hn hb,
      hnested.1, hnested.2]

lemma dominates_entry (hd : new f = some d) (hn : 0 < f.blocks.length)
    (hb : Reachable f.StoredEdge 0 b) : d.dominates 0 b = true :=
  dominates_complete hmirror hd hn hb fun _ hp => hp.mem_entry

lemma IsIdomTable.immediate (h : IsIdomTable f idoms)
    {w : BlockId} (hb : b ≠ 0) (hw : idoms b = some w) :
    IsImmediateDominator f.StoredEdge 0 w b := by
  obtain ⟨rank, htree, -⟩ := h.tree
  refine ⟨?_, h.ancestor_dominates hmirror (.up hw (.refl w)), ?_⟩
  · rintro rfl
    exact absurd (htree.up hw hb) (lt_irrefl _)
  intro c hc hcb
  have hanc : Ancestor idoms c b := h.complete b (by rw [hw]; rfl) c hcb
  cases hanc with
  | refl => exact absurd rfl hc
  | up hparent hanc =>
    cases hw.symm.trans hparent
    exact h.ancestor_dominates hmirror hanc

/-- The tree is exact on every function whose edge lists mirror each other: the construction
returns, `dominates` is dominance along the stored edges, and the parent of a block is its
closest strict dominator. -/
theorem dominators_exact : ∃ d, new f = some d ∧
    (∀ a b, Reachable f.StoredEdge 0 a → Reachable f.StoredEdge 0 b →
      (d.dominates a b = true ↔ Dominates f.StoredEdge 0 a b)) ∧
    (0 < f.blocks.length → d.immediateDominator 0 = some 0) ∧
    (∀ b, b ≠ 0 → Reachable f.StoredEdge 0 b → ∃ w, d.immediateDominator b = some w ∧
      ∀ c, IsImmediateDominator f.StoredEdge 0 c b ↔ c = w) ∧ ∀ b, ¬ Reachable f.StoredEdge 0 b →
      d.immediateDominator b = none ∧ ∀ c, d.dominates b c = true ↔ b = c := by
  rcases Nat.eq_zero_or_pos f.blocks.length with hn | hn
  · -- without blocks nothing but the missing entry is reachable
    have hentry : ∀ b, Reachable f.StoredEdge 0 b → b = 0 := by
      rintro b ⟨p, hp⟩
      cases hp with
      | start => rfl
      | step _ hedge => exact absurd hedge.2 (by omega)
    refine ⟨_, if_pos hn, ?_, fun h => absurd h (by omega), ?_, ?_⟩
    · intro a b ha hb
      rw [hentry a ha, hentry b hb]
      exact ⟨fun _ => .refl 0, fun _ => rfl⟩
    · exact fun b hb hreach => absurd (hentry b hreach) hb
    · exact fun b _ => ⟨rfl, fun c => by simp [dominates]⟩
  · obtain ⟨idoms, htable, hnew⟩ := exists_new hn hmirror
    obtain ⟨rank, htree, -⟩ := htable.tree
    refine ⟨_, hnew, ?_, fun _ => ?_, ?_, ?_⟩
    · intro a b _ hb
      exact ⟨dominates_sound hmirror hnew, dominates_complete hmirror hnew hn hb⟩
    · rw [immediateDominator, if_pos hn]
      exact htree.root
    · intro b hb hreach
      obtain ⟨w, hw, -⟩ := htable.meet b hreach hb
      have himm := htable.immediate hmirror hb hw
      refine ⟨w, ?_, fun c => ?_⟩
      · rw [immediateDominator, if_pos (lt_of_storedReachable hn hreach)]
        exact hw
      exact ⟨fun hc => hc.unique hreach himm, fun hc => hc ▸ himm⟩
    · intro b hreach
      have hnone : idoms b = none := by
        rw [← not_isSome_iff_eq_none, htable.known]
        exact hreach
      refine ⟨by simp [immediateDominator, hnone], fun c => ?_⟩
      by_cases hbc : b = c
      · simp [dominates, hbc]
      · simp [dominates, hnone]

end Sound

/-- Two blocks that are entered from the entry and from each other, and one that is not reached. -/
def irreducible : AmirFunc :=
  let blocks : List AmirBasicBlock :=
    [ ⟨0, .empty, .empty, .branch (.constant (.bool true)) 1 [] 2 []⟩,
      ⟨1, .empty, .empty, .goto 2 []⟩, ⟨2, .empty, .empty, .goto 1 []⟩,
      ⟨3, .empty, .empty, .unreachable⟩ ]
  { symbol := 0, returnType := 0, receiver := none, params := [], locals := [], temps := [],
    blocks := blocks, blockParams := [], stmts := [], cfg := computeCfgEdges blocks }

theorem dominators_exact_irreducible :
    (∀ m n, n ∈ irreducible.successors m ↔ m ∈ irreducible.predecessors n) ∧
      ∃ d, new irreducible = some d ∧ d.immediateDominator 2 = some 0 ∧
        IsImmediateDominator irreducible.StoredEdge 0 0 2 := by
  have hedges : ∀ m < 4, ∀ n ∈ (irreducible.block m).terminator.targets, n < 4 := by decide
  have htargets : ∀ m n, irreducible.Edge m n → n < irreducible.blocks.length := by
    exact fun m n h => hedges m (AmirFunc.lt_of_edge h) n h
  have hcfg : irreducible.CfgExact := AmirFunc.cfgExact_of_compute rfl htargets
  refine ⟨hcfg.covers.mirror, ?_⟩
  obtain ⟨d, hd, -, -, hidom, -⟩ := dominators_exact hcfg.covers.mirror
  have hedge : 2 ∈ (irreducible.block 0).terminator.targets := by decide
  have hreach : Reachable irreducible.StoredEdge 0 2 :=
    Reachable.start.step (AmirFunc.edge_stored hcfg.covers htargets 0 2 hedge)
  obtain ⟨w, hw, hunique⟩ := hidom 2 (by decide) hreach
  have hzero : (new irreducible).bind (immediateDominator · 2) = some 0 := by decide
  rw [hd, bind_some, hw] at hzero
  cases hzero
  exact ⟨d, hd, hw, (hunique 0).2 rfl⟩

end Dominators

end Arandu.Amir
