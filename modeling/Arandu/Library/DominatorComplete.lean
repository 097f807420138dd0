import Arandu.Library.DominatorTree

/-!
# The dominator tree misses nothing

A table that satisfies the equations of the tree may have too few ancestors. The iteration starts
with too many and gives one up only for a walk that avoids it: `DomInv` keeps such a walk from every
parent to its child.
-/

namespace Arandu.Library

variable {rank : Nat → Nat} {parent : Nat → Option Nat}

/-- Edges that do not lead above `u`. -/
def EdgeBelow (edge : Nat → Nat → Prop) (parent : Nat → Option Nat) (u m n : Nat) : Prop :=
  edge m n ∧ (Ancestor parent n u → n = u)

/-- What every step of a sweep keeps. -/
structure DomInv (edge : Nat → Nat → Prop) (parent : Nat → Option Nat) : Prop where
  complete : ∀ x, (parent x).isSome → ∀ a, Dominates edge 0 a x → Ancestor parent a x
  walks : ∀ x u, parent x = some u → Reachable (EdgeBelow edge parent u) u x

lemma RankedTree.ancestor_antisymm (h : RankedTree rank parent) {a b : Nat}
    (hab : Ancestor parent a b) (hba : Ancestor parent b a) : a = b := by
  cases hab with
  | refl => rfl
  | @up m _ hpar hanc =>
    by_cases hb : b = 0
    · subst hb
      rw [h.root] at hpar
      cases hpar
      exact hanc.eq_of_self h.root
    · -- ranks would increase along the circle
      have hup := h.up hpar hb
      have := h.rank_le hanc
      have := h.rank_le hba
      omega

variable {edge : Nat → Nat → Prop}

lemma DomInv.walk (h : DomInv edge parent) (htree : RankedTree rank parent) {g x : Nat}
    (hg : Ancestor parent g x) : Reachable (EdgeBelow edge parent g) g x := by
  induction hg with
  | refl => exact .start
  | @up m x hpar hanc ih =>
    refine ih.trans ((h.walks x m hpar).mono ?_)
    rintro y z ⟨hyz, hz⟩
    refine ⟨hyz, fun hzg => ?_⟩
    -- a node above `g` that is `m` closes a circle
    obtain rfl : z = m := hz (hzg.trans hanc)
    exact htree.ancestor_antisymm hzg hanc

section Step

variable {preds : Nat → List Nat} {bound : Nat} {rest todo : List Nat} {b w : Nat}

/-- A dominator of the moved node lies above its new parent. -/
lemma DomInv.moved (h : DomInv edge parent) (htree : RankedTree rank parent)
    (hedge : ∀ p ∈ preds b, edge p b) (hmeet : IsMeet parent (preds b) w) (hbw : rank b < rank w)
    {a : Nat} (ha : Dominates edge 0 a b) : Ancestor (setParent parent b w) a b := by
  by_cases hab : a = b
  · rw [hab]
    exact .refl b
  have haw : Ancestor parent a w := by
    apply hmeet.nearest
    intro p hp hpk
    exact h.complete p hpk a ((ha.pred (hedge p hp)).resolve_left hab)
  exact .up (by rw [setParent, if_pos rfl]) (htree.ancestor_move_high haw hbw)

lemma DomInv.step (ho : SweepOrder preds rank bound rest)
    (hedge : ∀ b ∈ rest, ∀ p ∈ preds b, edge p b)
    (hinv : SweepInv preds rank rest (b :: todo) parent) (hat : SweepAt rank rest b todo)
    (hmeet : IsMeet parent (preds b) w) (h : DomInv edge parent) :
    DomInv edge (setParent parent b w) := by
  have hb : b ≠ 0 := ho.ne_root hat.mem
  have hbw : rank b < rank w := hinv.rank_lt_meet ho hat hmeet
  have hold : ∀ {a x : Nat}, (parent x).isSome → Ancestor (setParent parent b w) a x →
      Ancestor parent a x := hinv.tree.ancestor_of_move hmeet.known (hinv.moves_up hb hmeet)
  have hmoved : ∀ {a : Nat}, Dominates edge 0 a b → Ancestor (setParent parent b w) a b :=
    h.moved hinv.tree (hedge b hat.mem) hmeet hbw
  have hbelow : ∀ u, (parent u).isSome → ∀ m n, EdgeBelow edge parent u m n →
      EdgeBelow edge (setParent parent b w) u m n :=
    fun u hu m n hmn => ⟨hmn.1, fun hn => hmn.2 (hold hu hn)⟩
  constructor
  · intro x hx a ha
    rcases setParent_isSome.1 hx with rfl | hx
    · exact hmoved ha
    have hax : Ancestor parent a x := h.complete x hx a ha
    by_cases hbx : Ancestor parent b x
    · rcases hax.linear hbx with hab | hba
      · -- a dominator of `x` above `b` dominates `b`, since `x` is reached from `b` without it
        have hdom : Dominates edge 0 a b := by
          intro p hp
          by_contra hap
          have hne : a ≠ b := fun heq => hap (heq ▸ hp.mem_end)
          obtain ⟨q, hq, haq⟩ := hp.avoid hap
            (fun y z hyz => ⟨hyz.1, fun hza => hne (hza ▸ hyz.2 (hza ▸ hab))⟩)
            (h.walk hinv.tree hbx)
          exact haq (ha q hq)
        exact (hmoved hdom).trans (hinv.tree.ancestor_move_low hb hbx le_rfl)
      · exact hinv.tree.ancestor_move_low hb hax (hinv.tree.rank_le hba)
    · exact hax.move_of_not hbx
  · intro x u hu
    unfold setParent at hu
    split at hu
    next hxb =>
      -- the new parent reaches a predecessor that was swept before, and the node behind it
      cases hu
      subst hxb
      obtain ⟨p, hp, hpn, hlt⟩ := ho.forward x hat.mem
      have hpk : (parent p).isSome := hinv.known_of_rank_lt hat hpn hlt
      have hwp : Reachable (EdgeBelow edge parent w) w p :=
        h.walk hinv.tree (hmeet.ancestor p hp hpk)
      refine (hwp.mono (hbelow w hmeet.known)).step ⟨hedge x hat.mem p hp, fun hxw => ?_⟩
      have := hinv.tree.rank_le (hold hmeet.known hxw)
      omega
    · exact (h.walks x u hu).mono (hbelow u (hinv.tree.closed hu))

end Step

end Arandu.Library
