import Arandu.Library.Dominance
import Mathlib.Algebra.Order.BigOperators.Group.List
import Mathlib.Algebra.Order.Ring.Nat
import Mathlib.Data.List.Nodup

/-!
# Iterative construction of a dominator tree

The two-finger algorithm: nodes are swept in reverse post-order, the parent of a node
becomes the nearest common ancestor of those predecessors that already have a parent, and
sweeps are repeated until one changes nothing. `rank` is the position in post-order, so a
parent has a larger rank than its child.

A parent can go stale between two sweeps: the chains of all predecessors of a node may
change while the node still hangs below an ancestor they no longer share. That no such
detour lowers a parent again is what makes the iteration stop; `SweepInv` records the
facts that show it.
-/

namespace Arandu.Library

open List Option

section Algorithm

variable (preds : Nat → List Nat) (rank : Nat → Nat)

/-- Climb from both nodes, always from the one with the smaller rank, until they meet.
`none` when a parent is missing or two nodes share a rank. -/
def intersect (parent : Nat → Option Nat) : Nat → Nat → Nat → Option Nat
  | 0, b1, b2 => if b1 = b2 then some b1 else none
  | fuel + 1, b1, b2 =>
    if b1 = b2 then some b1
    else if rank b1 < rank b2 then (parent b1).bind fun p => intersect parent fuel p b2
    else if rank b2 < rank b1 then (parent b2).bind fun p => intersect parent fuel b1 p
    else none

def setParent (parent : Nat → Option Nat) (b w : Nat) : Nat → Option Nat :=
  fun x => if x = b then some w else parent x

variable (fuel : Nat)

/-- Intersect the predecessors that have a parent, in order, into `cur`. -/
def meetInto (parent : Nat → Option Nat) : List Nat → Nat → Option Nat
  | [], cur => some cur
  | p :: ps, cur =>
    if p ≠ cur ∧ (parent p).isSome then
      (intersect rank parent fuel p cur).bind fun cur' => meetInto parent ps cur'
    else meetInto parent ps cur

/-- One pass over the nodes of `todo`; the flag tells whether a parent changed. -/
def sweep : List Nat → (Nat → Option Nat) → Bool →
    Option ((Nat → Option Nat) × Bool)
  | [], parent, changed => some (parent, changed)
  | b :: todo, parent, changed =>
    match (preds b).find? fun p => (parent p).isSome with
    | none => sweep todo parent changed
    | some first =>
      (meetInto rank fuel parent (preds b) first).bind fun w =>
        if parent b ≠ some w then sweep todo (setParent parent b w) true
        else sweep todo parent changed

/-- Sweep until nothing changes. -/
def solve (order : List Nat) : Nat → (Nat → Option Nat) → Option (Nat → Option Nat)
  | 0, _ => none
  | rounds + 1, parent =>
    (sweep preds rank fuel order parent false).bind fun r =>
      if r.2 then solve order rounds r.1 else some r.1

end Algorithm

/-! ## Ranked trees -/

/-- Parents have parents, and ranks increase towards the root `0`. -/
structure RankedTree (rank : Nat → Nat) (parent : Nat → Option Nat) : Prop where
  root : parent 0 = some 0
  up : ∀ {x u}, parent x = some u → x ≠ 0 → rank x < rank u
  closed : ∀ {x u}, parent x = some u → (parent u).isSome

variable {rank : Nat → Nat} {parent : Nat → Option Nat} {x a b w : Nat}

variable (ha : Ancestor parent a x)

include ha in
lemma Ancestor.linear (hb : Ancestor parent b x) : Ancestor parent a b ∨ Ancestor parent b a := by
  induction ha with
  | refl => exact .inr hb
  | up hpar hanc ih =>
    cases hb with
    | refl => exact .inl (.up hpar hanc)
    | up hpar' hb =>
      rw [hpar] at hpar'
      cases hpar'
      exact ih hb

include ha in
lemma Ancestor.move_of_not (hb : ¬ Ancestor parent b x) : Ancestor (setParent parent b w) a x := by
  induction ha with
  | refl => exact .refl _
  | @up m x hpar hanc ih =>
    have hxb : x ≠ b := by
      rintro rfl
      exact hb (.refl x)
    exact .up (by rw [setParent, if_neg hxb, hpar]) (ih fun hbm => hb (.up hpar hbm))

namespace RankedTree

section

variable (h : RankedTree rank parent)
include h

include ha in
lemma rank_le : rank x ≤ rank a := by
  induction ha with
  | refl => exact le_rfl
  | @up m x hpar hanc ih =>
    by_cases hx : x = 0
    · subst hx
      rw [h.root] at hpar
      cases hpar
      exact ih
    · exact le_trans (h.up hpar hx).le ih

include ha in
lemma isSome_of_ancestor (hx : (parent x).isSome) : (parent a).isSome := by
  induction ha with
  | refl => exact hx
  | up hpar _ ih => exact ih (h.closed hpar)

include ha in
lemma ancestor_of_rank_lt (hb : Ancestor parent b x)
    (hlt : rank b < rank a) : Ancestor parent a b := by
  rcases ha.linear hb with hab | hba
  · exact hab
  · have := h.rank_le hba
    omega

lemma root_ancestor {bound : Nat} (hbound : ∀ x, (parent x).isSome → rank x ≤ bound)
    (hx : (parent x).isSome) : Ancestor parent 0 x := by
  -- the distance of the rank from its bound shrinks on the way up
  generalize hd : bound - rank x = d
  induction d using Nat.strongRecOn generalizing x with
  | ind d ih =>
    by_cases hx0 : x = 0
    · subst hx0
      exact .refl 0
    · obtain ⟨u, hu⟩ := isSome_iff_exists.1 hx
      have hlt := h.up hu hx0
      have hub := hbound u (h.closed hu)
      exact .up hu (ih (bound - rank u) (by omega) (h.closed hu) rfl)

end

/-! ## Moving one node -/

section Move

variable (h : RankedTree rank parent) {b w : Nat}

include h

lemma ancestor_of_move (hw : (parent w).isSome)
    (hup : ∀ u, parent b = some u → Ancestor parent w u) (hx : (parent x).isSome)
    (ha : Ancestor (setParent parent b w) a x) : Ancestor parent a x := by
  induction ha with
  | refl => exact .refl _
  | @up m x hpar hanc ih =>
    unfold setParent at hpar
    split at hpar
    next hxb =>
      cases hpar
      subst hxb
      obtain ⟨u, hu⟩ := isSome_iff_exists.1 hx
      exact .up hu ((ih hw).trans (hup u hu))
    · exact .up hpar (ih (h.closed hpar))

lemma ancestor_move_low (hb : b ≠ 0) (ha : Ancestor parent a x)
    (hle : rank a ≤ rank b) : Ancestor (setParent parent b w) a x := by
  induction ha with
  | refl => exact .refl _
  | @up m x hpar hanc ih =>
    have hxb : x ≠ b := by
      rintro rfl
      have := h.up hpar hb
      have := h.rank_le hanc
      omega
    exact .up (by rw [setParent, if_neg hxb, hpar]) ih

include ha in
lemma ancestor_move_high (hlt : rank b < rank x) : Ancestor (setParent parent b w) a x := by
  induction ha with
  | refl => exact .refl _
  | @up m x hpar hanc ih =>
    have hxb : x ≠ b := by
      rintro rfl
      exact absurd hlt (lt_irrefl _)
    refine .up (by rw [setParent, if_neg hxb, hpar]) (ih ?_)
    by_cases hx : x = 0
    · subst hx
      rw [h.root] at hpar
      cases hpar
      exact hlt
    · exact lt_trans hlt (h.up hpar hx)

lemma move (hb : b ≠ 0) (hw : (parent w).isSome) (hlt : rank b < rank w) :
    RankedTree rank (setParent parent b w) where
  root := by rw [setParent, if_neg hb.symm, h.root]
  up := by
    intro x u hu hx
    unfold setParent at hu
    split at hu
    next hxb =>
      cases hu
      exact hxb ▸ hlt
    · exact h.up hu hx
  closed := by
    intro x u hu
    have hset : ∀ y, (parent y).isSome → (setParent parent b w y).isSome := by
      intro y hy
      unfold setParent
      split
      · rfl
      · exact hy
    unfold setParent at hu
    split at hu
    · cases hu
      exact hset _ hw
    · exact hset _ (h.closed hu)

end Move

end RankedTree

lemma setParent_self (h : parent b = some w) : setParent parent b w = parent := by
  funext x
  unfold setParent
  split
  next hx => rw [hx, h]
  · rfl

lemma setParent_isSome : (setParent parent b w x).isSome ↔ x = b ∨ (parent x).isSome := by
  unfold setParent
  split
  next hx => simp [hx]
  next hx => simp [hx]

/-! ## Nearest common ancestors -/

/-- `w` is the nearest common ancestor of the nodes of `ps` that have a parent. -/
structure IsMeet (parent : Nat → Option Nat) (ps : List Nat) (w : Nat) : Prop where
  known : (parent w).isSome
  ancestor : ∀ p ∈ ps, (parent p).isSome → Ancestor parent w p
  nearest : ∀ a, (∀ p ∈ ps, (parent p).isSome → Ancestor parent a p) → Ancestor parent a w

/-- The order in which a graph is swept: ranks fall along `0 :: rest`, and every node of
`rest` has a predecessor that is swept before it. -/
structure SweepOrder (preds : Nat → List Nat) (rank : Nat → Nat) (bound : Nat)
    (rest : List Nat) : Prop where
  sorted : (0 :: rest).Pairwise fun a b => rank b < rank a
  bounded : rank 0 ≤ bound
  forward : ∀ b ∈ rest, ∃ p ∈ preds b, p ∈ 0 :: rest ∧ rank b < rank p

namespace SweepOrder

variable {preds : Nat → List Nat} {bound : Nat} {rest : List Nat}

variable (ho : SweepOrder preds rank bound rest)
include ho

lemma rank_le_root (hx : x ∈ 0 :: rest) : rank x ≤ rank 0 := by
  rcases mem_cons.1 hx with rfl | hx
  · exact le_rfl
  · exact ((pairwise_cons.1 ho.sorted).1 x hx).le

lemma rank_le_bound (hx : x ∈ 0 :: rest) : rank x ≤ bound :=
  (ho.rank_le_root hx).trans ho.bounded

lemma rank_inj {y : Nat} (hx : x ∈ 0 :: rest) (hy : y ∈ 0 :: rest) (heq : rank x = rank y) :
    x = y := by
  have hnodup : ((0 :: rest).map rank).Nodup :=
    pairwise_map.2 (ho.sorted.imp fun h => h.ne')
  exact inj_on_of_nodup_map hnodup hx hy heq

lemma ne_root (hb : b ∈ rest) : b ≠ 0 := by
  rintro rfl
  exact absurd ((pairwise_cons.1 ho.sorted).1 0 hb) (lt_irrefl _)

end SweepOrder

section Meet

variable {preds : Nat → List Nat} {bound : Nat} {rest : List Nat}

lemma IsMeet.swap {b1 b2 : Nat} (hmeet : IsMeet parent [b1, b2] w) : IsMeet parent [b2, b1] w where
  known := hmeet.known
  ancestor := fun p hp => hmeet.ancestor p (by simpa [or_comm] using hp)
  nearest := fun a ha => hmeet.nearest a fun p hp => ha p (by simpa [or_comm] using hp)

/-- A node that is no ancestor of the other may be replaced by its parent. -/
lemma IsMeet.climb (h : RankedTree rank parent) {u c : Nat} (hu : parent b = some u)
    (hc : (parent c).isSome) (hlt : rank b < rank c) (hmeet : IsMeet parent [u, c] w) :
    IsMeet parent [b, c] w := by
  refine ⟨hmeet.known, ?_, ?_⟩
  · obtain ⟨habove, hrest⟩ := forall_mem_cons.1 hmeet.ancestor
    exact forall_mem_cons.2 ⟨fun _ => .up hu (habove (h.closed hu)), hrest⟩
  · intro a ha
    have hac : Ancestor parent a c := ha c (by simp) hc
    obtain ⟨hab, hrest⟩ := forall_mem_cons.1 ha
    refine hmeet.nearest a (forall_mem_cons.2 ⟨fun _ => ?_, hrest⟩)
    cases hab (isSome_of_eq_some hu) with
    | refl =>
      have := h.rank_le hac
      omega
    | up hpar hanc =>
      rw [hu] at hpar
      cases hpar
      exact hanc

section

variable (ho : SweepOrder preds rank bound rest) (h : RankedTree rank parent)
  (hnodes : ∀ x, (parent x).isSome → x ∈ 0 :: rest)
include ho h hnodes

lemma intersect_spec {fuel b1 b2 : Nat} (h1 : (parent b1).isSome) (h2 : (parent b2).isSome)
    (hfuel : (bound - rank b1) + (bound - rank b2) ≤ fuel) :
    ∃ w, intersect rank parent fuel b1 b2 = some w ∧ IsMeet parent [b1, b2] w := by
  have hself : ∀ b, (parent b).isSome → IsMeet parent [b, b] b := by
    intro b hb
    refine ⟨hb, ?_, fun a ha => ha b mem_cons_self hb⟩
    intro p hp _
    have : p = b := by simpa using hp
    exact this ▸ .refl p
  have hbelow : ∀ x y, (parent x).isSome → (parent y).isSome → rank x < rank y → x ≠ 0 := by
    rintro x y hx hy hlt rfl
    have := ho.rank_le_root (hnodes y hy)
    omega
  induction fuel generalizing b1 b2 with
  | zero =>
    have hr1 := ho.rank_le_bound (hnodes b1 h1)
    have hr2 := ho.rank_le_bound (hnodes b2 h2)
    have heq : b1 = b2 := ho.rank_inj (hnodes b1 h1) (hnodes b2 h2) (by omega)
    subst heq
    exact ⟨b1, by simp [intersect], hself b1 h1⟩
  | succ fuel ih =>
    unfold intersect
    by_cases heq : b1 = b2
    · subst heq
      exact ⟨b1, by simp, hself b1 h1⟩
    rw [if_neg heq]
    obtain ⟨u1, hu1⟩ := isSome_iff_exists.1 h1
    obtain ⟨u2, hu2⟩ := isSome_iff_exists.1 h2
    by_cases hlt : rank b1 < rank b2
    · have hup := h.up hu1 (hbelow b1 b2 h1 h2 hlt)
      obtain ⟨w, hw, hmeet⟩ := ih (h.closed hu1) h2 (by omega)
      exact ⟨w, by simpa [hlt, hu1] using hw, hmeet.climb h hu1 h2 hlt⟩
    have hlt2 : rank b2 < rank b1 := by
      have : rank b1 ≠ rank b2 := fun hr => heq (ho.rank_inj (hnodes b1 h1) (hnodes b2 h2) hr)
      omega
    have hup := h.up hu2 (hbelow b2 b1 h2 h1 hlt2)
    obtain ⟨w, hw, hmeet⟩ := ih h1 (h.closed hu2) (by omega)
    exact ⟨w, by simpa [hlt, hlt2, hu2] using hw, (hmeet.swap.climb h hu2 h1 hlt2).swap⟩

lemma meetInto_spec {ps : List Nat} {cur : Nat} (hcur : (parent cur).isSome) :
    ∃ w, meetInto rank (2 * bound) parent ps cur = some w ∧ IsMeet parent (cur :: ps) w := by
  induction ps generalizing cur with
  | nil =>
    refine ⟨cur, rfl, hcur, ?_, fun a ha => ha cur mem_cons_self hcur⟩
    intro p hp _
    rw [mem_singleton.1 hp]
    exact .refl cur
  | cons p ps ih =>
    unfold meetInto
    split
    next hp =>
      obtain ⟨w, hw, hmeet⟩ : ∃ w, intersect rank parent (2 * bound) p cur = some w ∧
          IsMeet parent [p, cur] w := intersect_spec ho h hnodes hp.2 hcur (by omega)
      obtain ⟨v, hv, hmeet'⟩ := ih hmeet.known
      obtain ⟨hvw, hps⟩ := forall_mem_cons.1 hmeet'.ancestor
      have hpair (q : Nat) (hq : q ∈ [p, cur]) (hknown : (parent q).isSome) : Ancestor parent v q :=
        (hvw hmeet.known).trans (hmeet.ancestor q hq hknown)
      refine ⟨v, by rw [hw]; exact hv, hmeet'.known, ?_, ?_⟩
      · exact forall_mem_cons.2 ⟨hpair cur (by simp), forall_mem_cons.2 ⟨hpair p (by simp), hps⟩⟩
      · intro a ha
        obtain ⟨hacur, hrest⟩ := forall_mem_cons.1 ha
        obtain ⟨hap, hrest⟩ := forall_mem_cons.1 hrest
        refine hmeet'.nearest a (forall_mem_cons.2 ⟨fun _ => hmeet.nearest a ?_, hrest⟩)
        exact forall_mem_cons.2 ⟨hap, forall_mem_singleton.2 hacur⟩
    next hp =>
      -- skipped: it has no parent yet, or is the current candidate itself
      obtain ⟨v, hv, hmeet⟩ := ih hcur
      refine ⟨v, hv, hmeet.known, ?_, ?_⟩
      · obtain ⟨hfirst, hrest⟩ := forall_mem_cons.1 hmeet.ancestor
        refine forall_mem_cons.2 ⟨hfirst, forall_mem_cons.2 ⟨fun hknown => ?_, hrest⟩⟩
        have hpc : p = cur := by
          by_contra hne
          exact hp ⟨hne, hknown⟩
        exact hpc ▸ hfirst hcur
      · intro a ha
        obtain ⟨hacur, hrest⟩ := forall_mem_cons.1 ha
        exact hmeet.nearest a (forall_mem_cons.2 ⟨hacur, (forall_mem_cons.1 hrest).2⟩)

end

end Meet

/-! ## One sweep -/

/-- What holds between two steps of a sweep, with `todo` still to come.

`settled` bounds every parent from below by the common ancestors of the predecessors, so
that a parent only ever moves up. `forward` keeps this true while nodes above move: an
ancestor that is still to be swept is shared with every predecessor swept earlier. -/
structure SweepInv (preds : Nat → List Nat) (rank : Nat → Nat) (rest todo : List Nat)
    (parent : Nat → Option Nat) : Prop where
  tree : RankedTree rank parent
  nodes : ∀ x, (parent x).isSome → x ∈ 0 :: rest
  swept : ∀ x ∈ 0 :: rest, x ∉ todo → (parent x).isSome
  settled : ∀ x u, parent x = some u → x ≠ 0 →
    ∀ a, (∀ p ∈ preds x, (parent p).isSome → Ancestor parent a p) → Ancestor parent a u
  forward : ∀ x u, parent x = some u → x ≠ 0 →
    ∀ p ∈ preds x, p ∈ 0 :: rest → rank x < rank p → (parent p).isSome ∧
      ∀ a, Ancestor parent a u → x ∉ todo ∨ a ∈ todo → Ancestor parent a p

/-- A position inside a sweep: `b` is next, `done` has been swept. -/
structure SweepAt (rank : Nat → Nat) (rest : List Nat) (b : Nat) (todo : List Nat) : Prop where
  mem : b ∈ rest
  later : ∀ x ∈ todo, rank x < rank b
  earlier : ∀ x ∈ 0 :: rest, x ∉ b :: todo → rank b < rank x

section Sweep

variable {preds : Nat → List Nat} {bound : Nat} {rest todo : List Nat} {b w : Nat}

lemma SweepInv.known_of_rank_lt (h : SweepInv preds rank rest (b :: todo) parent)
    (hat : SweepAt rank rest b todo) {p : Nat} (hp : p ∈ 0 :: rest) (hlt : rank b < rank p) :
    (parent p).isSome := by
  refine h.swept p hp fun hmem => ?_
  rcases mem_cons.1 hmem with rfl | hmem
  · exact absurd hlt (lt_irrefl _)
  · exact absurd (hat.later p hmem) (Nat.lt_asymm hlt)

lemma SweepInv.moves_up (h : SweepInv preds rank rest (b :: todo) parent) (hb : b ≠ 0)
    (hmeet : IsMeet parent (preds b) w) (u : Nat) (hu : parent b = some u) : Ancestor parent w u :=
  h.settled b u hu hb w hmeet.ancestor

variable (ho : SweepOrder preds rank bound rest) (h : SweepInv preds rank rest (b :: todo) parent)
include ho h

lemma SweepInv.rank_lt_meet (hat : SweepAt rank rest b todo) (hmeet : IsMeet parent (preds b) w) :
    rank b < rank w := by
  obtain ⟨p, hp, hpn, hlt⟩ := ho.forward b hat.mem
  exact lt_of_lt_of_le hlt (h.tree.rank_le (hmeet.ancestor p hp (h.known_of_rank_lt hat hpn hlt)))

/-- A node below `b` keeps the bound on its parent when `b` moves. -/
lemma SweepInv.settled_below (hb : b ≠ 0) (htree : RankedTree rank (setParent parent b w))
    {u : Nat} (hx : parent x = some u) (hx0 : x ≠ 0) (hbu : Ancestor parent b u)
    (hau : Ancestor parent a u)
    (hcommon : ∀ p ∈ preds x, (parent p).isSome → Ancestor (setParent parent b w) a p) :
    Ancestor (setParent parent b w) a u := by
  by_cases hle : rank a ≤ rank b
  · exact h.tree.ancestor_move_low hb hau hle
  -- `b` is still an ancestor of a predecessor swept before `x`, and so is `a`
  have hxr : x ∈ rest := by
    rcases mem_cons.1 (h.nodes x (isSome_of_eq_some hx)) with h0 | hr
    · exact absurd h0 hx0
    · exact hr
  obtain ⟨p, hp, hpn, hlt⟩ := ho.forward x hxr
  obtain ⟨hpk, hshare⟩ := h.forward x u hx hx0 p hp hpn hlt
  have hbp : Ancestor (setParent parent b w) b p :=
    h.tree.ancestor_move_low hb (hshare b hbu (.inr mem_cons_self)) le_rfl
  have hbu' : Ancestor (setParent parent b w) b u :=
    h.tree.ancestor_move_low hb hbu le_rfl
  exact (htree.ancestor_of_rank_lt (hcommon p hp hpk) hbp (not_le.1 hle)).trans hbu'

lemma SweepInv.step (hat : SweepAt rank rest b todo) (hmeet : IsMeet parent (preds b) w) :
    SweepInv preds rank rest todo (setParent parent b w) := by
  have hb : b ≠ 0 := ho.ne_root hat.mem
  have hbw : rank b < rank w := h.rank_lt_meet ho hat hmeet
  have htree : RankedTree rank (setParent parent b w) := h.tree.move hb hmeet.known hbw
  have hold : ∀ {a x : Nat}, (parent x).isSome → Ancestor (setParent parent b w) a x →
      Ancestor parent a x := h.tree.ancestor_of_move hmeet.known (h.moves_up hb hmeet)
  have hkeep : ∀ x, (parent x).isSome → (setParent parent b w x).isSome :=
    fun x hx => setParent_isSome.2 (.inr hx)
  constructor
  · exact htree
  · intro x hx
    rcases setParent_isSome.1 hx with rfl | hx
    · exact mem_cons_of_mem _ hat.mem
    · exact h.nodes x hx
  · intro x hx hnot
    by_cases hxb : x = b
    · exact setParent_isSome.2 (.inl hxb)
    · refine hkeep x (h.swept x hx fun hmem => ?_)
      rcases mem_cons.1 hmem with heq | hmem
      · exact hxb heq
      · exact hnot hmem
  · intro x u hu hx0 a ha
    have hcommon : ∀ p ∈ preds x, (parent p).isSome → Ancestor (setParent parent b w) a p :=
      fun p hp hpk => ha p hp (hkeep p hpk)
    by_cases hxb : x = b
    · subst hxb
      rw [setParent, if_pos rfl] at hu
      cases hu
      have haw : Ancestor parent a w :=
        hmeet.nearest a fun p hp hpk => hold hpk (hcommon p hp hpk)
      exact h.tree.ancestor_move_high haw hbw
    · rw [setParent, if_neg hxb] at hu
      have hau : Ancestor parent a u :=
        h.settled x u hu hx0 a fun p hp hpk => hold hpk (hcommon p hp hpk)
      by_cases hbu : Ancestor parent b u
      · exact h.settled_below ho hb htree hu hx0 hbu hau hcommon
      · exact hau.move_of_not hbu
  · intro x u hu hx0 p hp hpn hlt
    by_cases hxb : x = b
    · subst hxb
      rw [setParent, if_pos rfl] at hu
      cases hu
      have hpk : (parent p).isSome := h.known_of_rank_lt hat hpn hlt
      refine ⟨hkeep p hpk, fun a ha _ => ha.trans ?_⟩
      exact h.tree.ancestor_move_high (hmeet.ancestor p hp hpk) hlt
    · rw [setParent, if_neg hxb] at hu
      obtain ⟨hpk, hshare⟩ := h.forward x u hu hx0 p hp hpn hlt
      refine ⟨hkeep p hpk, fun a ha hside => ?_⟩
      have hau : Ancestor parent a u := hold (h.tree.closed hu) ha
      rcases hside with hx | hat'
      · have hxt : x ∉ b :: todo := by
          intro hmem
          rcases mem_cons.1 hmem with heq | hmem
          · exact hxb heq
          · exact hx hmem
        have hbx : rank b < rank x :=
          hat.earlier x (h.nodes x (isSome_of_eq_some hu)) hxt
        exact h.tree.ancestor_move_high (hshare a hau (.inl hxt)) (lt_trans hbx hlt)
      · exact h.tree.ancestor_move_low hb (hshare a hau (.inr (mem_cons_of_mem _ hat')))
          (hat.later a hat').le

end Sweep

/-! ## Whole sweeps -/

section Solve

variable {preds : Nat → List Nat} {bound : Nat} {rest : List Nat}

/-- How far a parent still is from the root; a missing parent counts most. -/
def rankGap (rank : Nat → Nat) (bound : Nat) : Option Nat → Nat
  | none => bound + 1
  | some u => bound - rank u

lemma rankGap_lt (hle : rank w ≤ bound) {old : Option Nat}
    (hup : ∀ u, old = some u → rank u < rank w) :
    rankGap rank bound (some w) < rankGap rank bound old := by
  cases old with
  | none => exact Nat.lt_succ_of_le (Nat.sub_le _ _)
  | some u =>
    have := hup u rfl
    exact Nat.sub_lt_sub_left (by omega) this

/-- What a changing sweep lowers. -/
def parentCost (rank : Nat → Nat) (bound : Nat) (nodes : List Nat)
    (parent : Nat → Option Nat) : Nat :=
  (nodes.map fun x => rankGap rank bound (parent x)).sum

lemma parentCost_move (hb : b ∈ rest) (hle : rank w ≤ bound)
    (hup : ∀ u, parent b = some u → rank u < rank w) :
    parentCost rank bound rest (setParent parent b w) < parentCost rank bound rest parent := by
  have hgap := rankGap_lt hle hup
  refine sum_lt_sum _ _ (fun x _ => ?_) ⟨b, hb, by simpa [setParent] using hgap⟩
  by_cases hx : x = b
  · subst hx
    simpa [setParent] using hgap.le
  · simp [setParent, hx]

/-- A property of parent tables that every step of a sweep keeps. -/
def KeptBySweeps (preds : Nat → List Nat) (rank : Nat → Nat) (rest : List Nat)
    (J : (Nat → Option Nat) → Prop) : Prop :=
  ∀ {parent : Nat → Option Nat} {b w : Nat} {todo : List Nat},
    SweepInv preds rank rest (b :: todo) parent → SweepAt rank rest b todo →
    IsMeet parent (preds b) w → J parent → J (setParent parent b w)

variable {J : (Nat → Option Nat) → Prop}

/-- A sweep succeeds, lowers the cost if it changes anything, and otherwise shows that every
parent is the nearest common ancestor of the predecessors. -/
lemma sweep_spec (ho : SweepOrder preds rank bound rest)
    (hkept : KeptBySweeps preds rank rest J) {done todo : List Nat}
    (hsplit : rest = done ++ todo) (h : SweepInv preds rank rest todo parent) (hJ : J parent)
    (changed : Bool) : ∃ parent' changed', sweep preds rank (2 * bound) todo parent changed =
        some (parent', changed') ∧ SweepInv preds rank rest [] parent' ∧ J parent' ∧
      ((changed' = changed ∧ parent' = parent ∧
          ∀ b ∈ todo, ∃ w, parent b = some w ∧ IsMeet parent (preds b) w) ∨ (changed' = true ∧
          parentCost rank bound rest parent' < parentCost rank bound rest parent)) := by
  induction todo generalizing done parent changed with
  | nil => exact ⟨parent, changed, rfl, h, hJ, .inl ⟨rfl, rfl, by simp⟩⟩
  | cons b todo ih =>
    have hsplit' : rest = (done ++ [b]) ++ todo := by simp [hsplit]
    have hat : SweepAt rank rest b todo := by
      have hsorted := ho.sorted
      rw [hsplit, ← cons_append, pairwise_append] at hsorted
      refine ⟨by simp [hsplit], (pairwise_cons.1 hsorted.2.1).1, ?_⟩
      intro x hx hnot
      rw [hsplit, ← cons_append, mem_append] at hx
      rcases hx with hx | hx
      · exact hsorted.2.2 x hx b mem_cons_self
      · exact absurd hx hnot
    obtain ⟨p, hp, hpn, hlt⟩ := ho.forward b hat.mem
    have hpk : (parent p).isSome := h.known_of_rank_lt hat hpn hlt
    obtain ⟨first, hfirst⟩ : ∃ first, (preds b).find? (fun p => (parent p).isSome) =
        some first := by
      have : ((preds b).find? fun p => (parent p).isSome).isSome :=
        find?_isSome.2 ⟨p, hp, hpk⟩
      exact isSome_iff_exists.1 this
    have hfk : (parent first).isSome := by simpa using find?_some hfirst
    have hfm : first ∈ preds b := mem_of_find?_eq_some hfirst
    obtain ⟨w, hw, hmeet'⟩ := meetInto_spec ho h.tree h.nodes hfk
    have hmeet : IsMeet parent (preds b) w := by
      exact ⟨hmeet'.known, (forall_mem_cons.1 hmeet'.ancestor).2,
        fun a ha => hmeet'.nearest a (forall_mem_cons.2 ⟨ha first hfm, ha⟩)⟩
    have hstep := h.step ho hat hmeet
    have hJ' := hkept h hat hmeet hJ
    simp only [sweep, hfirst, hw]
    by_cases heq : parent b = some w
    · rw [setParent_self heq] at hstep
      obtain ⟨parent', changed', hrun, hinv, hkeep, hcases⟩ := ih hsplit' hstep hJ changed
      refine ⟨parent', changed', by simpa [heq] using hrun, hinv, hkeep, ?_⟩
      rcases hcases with ⟨hc, hpar, hall⟩ | hcost
      · exact .inl ⟨hc, hpar, forall_mem_cons.2 ⟨⟨w, heq, hmeet⟩, hall⟩⟩
      · exact .inr hcost
    · have hcost : parentCost rank bound rest (setParent parent b w) <
          parentCost rank bound rest parent := by
        refine parentCost_move hat.mem (ho.rank_le_bound (h.nodes w hmeet.known)) ?_
        intro u hu
        have hwu := h.moves_up (ho.ne_root hat.mem) hmeet u hu
        have hne : rank u ≠ rank w := by
          intro hr
          have := ho.rank_inj (h.nodes u (h.tree.closed hu)) (h.nodes w hmeet.known) hr
          exact heq (this ▸ hu)
        have := h.tree.rank_le hwu
        omega
      obtain ⟨parent', changed', hrun, hinv, hkeep, hcases⟩ := ih hsplit' hstep hJ' true
      refine ⟨parent', changed', by simpa [heq] using hrun, hinv, hkeep, .inr ?_⟩
      rcases hcases with ⟨hc, hpar, -⟩ | ⟨hc, hlt'⟩
      · exact ⟨hc, hpar ▸ hcost⟩
      · exact ⟨hc, hlt'.trans hcost⟩

lemma SweepInv.restart (h : SweepInv preds rank rest [] parent) :
    SweepInv preds rank rest rest parent where
  tree := h.tree
  nodes := h.nodes
  swept := fun x hx _ => h.swept x hx not_mem_nil
  settled := h.settled
  forward := fun x u hu hx0 p hp hpn hlt =>
    ⟨(h.forward x u hu hx0 p hp hpn hlt).1,
      fun a ha _ => (h.forward x u hu hx0 p hp hpn hlt).2 a ha (.inl not_mem_nil)⟩

/-- Enough rounds reach a table in which every parent is the nearest common ancestor of
the predecessors. -/
lemma solve_spec (ho : SweepOrder preds rank bound rest)
    (hkept : KeptBySweeps preds rank rest J) {rounds : Nat}
    (h : SweepInv preds rank rest rest parent) (hJ : J parent)
    (hrounds : parentCost rank bound rest parent < rounds) :
    ∃ parent', solve preds rank (2 * bound) rest rounds parent = some parent' ∧
      SweepInv preds rank rest [] parent' ∧ J parent' ∧
      ∀ b ∈ rest, ∃ w, parent' b = some w ∧ IsMeet parent' (preds b) w := by
  induction rounds generalizing parent with
  | zero => omega
  | succ rounds ih =>
    obtain ⟨parent', changed', hrun, hinv, hkeep, hcases⟩ :=
      sweep_spec ho hkept (nil_append rest).symm h hJ false
    simp only [solve, hrun]
    rcases hcases with ⟨hc, hpar, hall⟩ | ⟨hc, hlt⟩
    · subst hc hpar
      exact ⟨parent', by simp, hinv, hkeep, hall⟩
    · subst hc
      obtain ⟨parent'', hsolve, hrest⟩ := ih hinv.restart hkeep (by omega)
      exact ⟨parent'', by simpa using hsolve, hrest⟩

end Solve

end Arandu.Library
