import Arandu.Mir.Moves.Cover
import Mathlib.Data.List.GetD

/-!
# How often move states can change

A function that moves and destroys whole locals only never records fields, and its states are
ordered local by local: an available or moved local may become maybe moved. Facts only go up,
so the facts of a block change at most once for every local after its first visit, and each
change queues every target of its terminator (`moveGuard_holds`).

Field paths are recorded as lists in the order in which they are found, and lists with the same
paths in another order count as a change; nothing here bounds how often that happens.
-/

namespace Arandu.Mir

open Arandu.Amir Arandu.Library List MoveState

variable {edgeOut : List (List (BlockId × MoveState))} {l : LocalId} {b : BlockId}

/-! ## The order of move states -/

/-- `y` is `x`, or the less precise `maybeMoved`. -/
def LocalMoveState.Below (x y : LocalMoveState) : Prop := x = y ∨ y = .maybeMoved

namespace LocalMoveState.Below

variable {x y z : LocalMoveState}

lemma refl (x : LocalMoveState) : Below x x := .inl rfl

lemma trans (hxy : Below x y) (hyz : Below y z) : Below x z := by
  rcases hxy with rfl | rfl
  · exact hyz
  · exact .inr (hyz.elim Eq.symm id)

lemma join_iff : Below (joinMoveState x y) z ↔ Below x z ∧ Below y z := by
  cases x <;> cases y <;> cases z <;> simp [Below, joinMoveState]

end LocalMoveState.Below

/-- A state without fields, and with every local of `n` in one of the sets at most. -/
structure Whole (n : Nat) (s : MoveState) : Prop where
  fields : s.fields = []
  moved : s.moved ⊆ Finset.range n
  maybeMoved : s.maybeMoved ⊆ Finset.range n
  disjoint : Disjoint s.moved s.maybeMoved

def StateBelow (s t : MoveState) : Prop := ∀ l, (s.rootState l).Below (t.rootState l)

section Order

variable {n : Nat} {s t u : MoveState} {preds : List MoveState}

lemma StateBelow.refl (s : MoveState) : StateBelow s s := fun _ => .refl _

lemma StateBelow.trans (hst : StateBelow s t) (htu : StateBelow t u) : StateBelow s u :=
  fun l => (hst l).trans (htu l)

lemma whole_new : Whole n .new :=
  ⟨rfl, Finset.empty_subset _, Finset.empty_subset _, Finset.disjoint_empty_left _⟩

lemma Whole.set (h : Whole n s) (hl : l < n) (state : LocalMoveState) :
    Whole n (s.set l state) := by
  have hmem : l ∈ Finset.range n := Finset.mem_range.2 hl
  refine ⟨?_, ?_, ?_, ?_⟩
  · have hfields := append_eq_nil_iff.1 h.fields
    simp [MoveState.set, MoveState.fields, hfields.1, hfields.2]
  · simp only [MoveState.set]
    split
    · exact Finset.insert_subset hmem h.moved
    · exact (Finset.erase_subset _ _).trans h.moved
  · simp only [MoveState.set]
    split
    · exact Finset.insert_subset hmem h.maybeMoved
    · exact (Finset.erase_subset _ _).trans h.maybeMoved
  · rw [Finset.disjoint_left]
    intro a ha hb
    have hdisjoint : a ∈ s.moved → a ∉ s.maybeMoved :=
      fun hmoved => Finset.disjoint_left.1 h.disjoint hmoved
    cases state <;> simp [MoveState.set] at ha hb <;> tauto

lemma Whole.mem_maybeMoved (h : Whole n s) : l ∈ s.maybeMoved ↔ s.rootState l = .maybeMoved := by
  unfold rootState
  constructor
  · intro hl
    rw [if_neg fun hmoved => Finset.disjoint_left.1 h.disjoint hmoved hl, if_pos hl]
  intro hl
  split at hl
  · cases hl
  · split at hl
    · assumption
    · cases hl

lemma mem_moved_iff : l ∈ s.moved ↔ s.rootState l = .moved := by
  unfold rootState
  split
  · simp_all
  · split <;> simp_all

lemma Whole.ext (hs : Whole n s) (ht : Whole n t) (h : ∀ l, s.rootState l = t.rootState l) :
    s = t := by
  have hmoved : s.moved = t.moved := by
    ext l
    rw [mem_moved_iff, mem_moved_iff, h]
  have hmaybe : s.maybeMoved = t.maybeMoved := by
    ext l
    rw [hs.mem_maybeMoved, ht.mem_maybeMoved, h]
  have hsf := append_eq_nil_iff.1 hs.fields
  have htf := append_eq_nil_iff.1 ht.fields
  obtain ⟨sm, sy, sf, sg⟩ := s
  obtain ⟨tm, ty, tf, tg⟩ := t
  simp_all

lemma card_maybeMoved_lt (hs : Whole n s) (ht : Whole n t) (h : StateBelow s t) (hne : s ≠ t) :
    s.maybeMoved.card < t.maybeMoved.card := by
  apply Finset.card_lt_card
  rw [Finset.ssubset_iff_of_subset]
  · obtain ⟨l, hl⟩ : ∃ l, s.rootState l ≠ t.rootState l := by
      by_contra hall
      exact hne (hs.ext ht fun l => not_not.1 fun hl => hall ⟨l, hl⟩)
    have htl := (h l).resolve_left hl
    refine ⟨l, ht.mem_maybeMoved.2 htl, fun hsl => hl ?_⟩
    rw [hs.mem_maybeMoved.1 hsl, htl]
  · intro l hl
    rw [hs.mem_maybeMoved] at hl
    rw [ht.mem_maybeMoved]
    exact (h l).elim (fun heq => heq ▸ hl) id

lemma Whole.card_le (h : Whole n s) : s.maybeMoved.card ≤ n := by
  simpa using Finset.card_le_card h.maybeMoved

/-- Locals outside the table are always available. -/
lemma Whole.rootState_of_le (h : Whole n s) (hl : n ≤ l) : s.rootState l = .available := by
  have hout : l ∉ Finset.range n := fun hmem => absurd (Finset.mem_range.1 hmem) (not_lt.2 hl)
  unfold rootState
  rw [if_neg fun hmem => hout (h.moved hmem), if_neg fun hmem => hout (h.maybeMoved hmem)]

/-! ### Joins -/

lemma Whole.join (hs : Whole n s) (ht : Whole n t) : Whole n (s.join t n) := by
  rw [MoveState.join, hs.fields, ht.fields]
  exact foldlRecOn (range n) _ whole_new fun joined h l hl => h.set (mem_range.1 hl) _

lemma stateBelow_join_iff (hs : Whole n s) (ht : Whole n t) :
    StateBelow (s.join t n) u ↔ StateBelow s u ∧ StateBelow t u := by
  have hjoin : ∀ l, (s.join t n).rootState l = joinMoveState (s.rootState l) (t.rootState l) := by
    intro l
    by_cases hl : l < n
    · exact rootState_join hl
    · have hl := not_lt.1 hl
      rw [(hs.join ht).rootState_of_le hl, hs.rootState_of_le hl, ht.rootState_of_le hl]
      rfl
  simp only [StateBelow, hjoin, LocalMoveState.Below.join_iff, forall_and]

lemma whole_joinPredecessors (h : ∀ s ∈ preds, Whole n s) : Whole n (joinPredecessors preds n) := by
  match preds, h with
  | [], _ => exact whole_new
  | first :: rest, h =>
    rw [forall_mem_cons] at h
    exact foldlRecOn rest _ h.1 fun acc hacc p hp => hacc.join (h.2 p hp)

lemma joinPredecessors_below_iff (hpreds : ∀ s ∈ preds, Whole n s) (hne : preds ≠ []) :
    StateBelow (joinPredecessors preds n) u ↔ ∀ s ∈ preds, StateBelow s u := by
  have hfold : ∀ (rest : List MoveState) (acc : MoveState), (∀ s ∈ rest, Whole n s) →
      Whole n acc → (StateBelow (rest.foldl (fun acc p => acc.join p n) acc) u ↔
        StateBelow acc u ∧ ∀ s ∈ rest, StateBelow s u) := by
    intro rest
    induction rest with
    | nil => simp
    | cons p rest ih =>
      intro acc hrest hacc
      have hp := hrest p mem_cons_self
      rw [foldl_cons, ih _ (fun s hs => hrest s (mem_cons_of_mem _ hs)) (hacc.join hp),
        stateBelow_join_iff hacc hp, and_assoc, forall_mem_cons]
  match preds, hne with
  | first :: rest, _ =>
    rw [forall_mem_cons] at hpreds ⊢
    exact hfold rest first hpreds.2 hpreds.1

end Order

/-! ## Accesses -/

def Access.MovesWhole : Access → Prop
  | .move place | .destroy place => (trackedMovePlace place).projections = []
  | .read _ | .through _ | .store _ => True

instance : DecidablePred Access.MovesWhole
  | .move _ | .destroy _ => inferInstanceAs (Decidable (_ = _))
  | .read _ | .through _ | .store _ => inferInstanceAs (Decidable True)

section Accesses

variable {n : Nat} {s t : MoveState} {place : AmirPlace} {as : List Access} {a : Access}

lemma StateBelow.set (h : StateBelow s t) (l : LocalId) (state : LocalMoveState) :
    StateBelow (s.set l state) (t.set l state) := by
  intro l'
  rw [rootState_set, rootState_set]
  split
  · exact .refl _
  · exact h l'

lemma movePlace_whole (h : (trackedMovePlace place).projections = []) :
    s.movePlace place = s.set place.localId .moved := by
  simp [movePlace, h]

lemma Whole.restorePlace (h : Whole n s) (hl : place.localId < n) :
    Whole n (s.restorePlace place) := by
  unfold MoveState.restorePlace
  dsimp only
  split
  · rw [trackedMovePlace_localId]
    exact h.set hl .available
  · -- there are no fields to restore
    obtain ⟨hmoved, hmaybe⟩ := append_eq_nil_iff.1 h.fields
    refine ⟨?_, h.moved, h.maybeMoved, h.disjoint⟩
    simp [MoveState.fields, hmoved, hmaybe]

lemma StateBelow.restorePlace (h : StateBelow s t) (place : AmirPlace) :
    StateBelow (s.restorePlace place) (t.restorePlace place) := by
  unfold MoveState.restorePlace
  dsimp only
  split
  · exact h.set _ _
  · exact h

lemma Whole.apply (h : Whole n s) (ha : a.MovesWhole) (hl : a.place.localId < n) :
    Whole n (a.apply s) := by
  cases a with
  | read place => exact h
  | through place => exact h
  | move place | destroy place =>
    rw [Access.apply, movePlace_whole ha]
    exact h.set hl .moved
  | store place => exact h.restorePlace hl

lemma StateBelow.apply (h : StateBelow s t) (ha : a.MovesWhole) :
    StateBelow (a.apply s) (a.apply t) := by
  cases a with
  | read place => exact h
  | through place => exact h
  | move place | destroy place =>
    rw [Access.apply, Access.apply, movePlace_whole ha, movePlace_whole ha]
    exact h.set _ _
  | store place => exact h.restorePlace place

lemma Whole.accesses (has : ∀ a ∈ as, a.MovesWhole ∧ a.place.localId < n)
    (h : Whole n s) : Whole n (as.foldl Access.apply s) :=
  foldlRecOn as _ h fun _ h a ha => h.apply (has a ha).1 (has a ha).2

lemma StateBelow.accesses (has : ∀ a ∈ as, a.MovesWhole)
    (h : StateBelow s t) : StateBelow (as.foldl Access.apply s) (as.foldl Access.apply t) :=
  foldl_rel h fun a ha _ _ h => h.apply (has a ha)

end Accesses

def edgeAccesses (f : AmirFunc) (origins : Origins) (b : BlockId)
    (edge : BlockId × List AmirOperand) : List Access :=
  blockAccesses f origins b ++ edge.2.flatMap (operandAccess f origins)

/-- No field is ever moved out on its own, and declared locals are accessed only. -/
def MovesWholeLocals (f : AmirFunc) (origins : Origins) : Prop :=
  ∀ b, ∀ edge ∈ (f.block b).terminator.edges, ∀ a ∈ edgeAccesses f origins b edge,
    a.MovesWhole ∧ a.place.localId < f.locals.length

/-! ## Facts go up -/

section Facts

variable {f : AmirFunc} {origins : Origins} {facts : MoveFacts} {newIn : MoveState}

/-- The facts of every block are below what the states that arrive now give. -/
structure MovesRise (f : AmirFunc) (origins : Origins) (facts : MoveFacts) : Prop where
  lengths : facts.blockIn.length = f.blocks.length ∧ facts.edgeOut.length = f.blocks.length
  whole : ∀ b, Whole f.locals.length (facts.blockIn.getD b .new)
  /-- the edges of a block that has been visited carry the states its facts give -/
  output : ∀ b, facts.edgeOut.getD b [] ≠ [] →
    facts.edgeOut.getD b [] = blockEdgeStates f origins b (facts.blockIn.getD b .new)
  fresh : ∀ b, (f.block b).terminator.edges ≠ [] → facts.edgeOut.getD b [] = [] →
    facts.blockIn.getD b .new = .new
  started : ∀ b, facts.edgeOut.getD b [] ≠ [] →
    incomingStates f facts.edgeOut b = [] → f.predecessors b = []
  below : ∀ b, facts.edgeOut.getD b [] ≠ [] → StateBelow (facts.blockIn.getD b .new)
    (joinPredecessors (incomingStates f facts.edgeOut b) f.locals.length)

variable (hwhole : MovesWholeLocals f origins)

include hwhole in
lemma whole_blockEdgeStates {input : MoveState}
    (h : Whole f.locals.length input) {e : BlockId × MoveState}
    (he : e ∈ blockEdgeStates f origins b input) : Whole f.locals.length e.2 := by
  rw [blockEdgeStates_eq] at he
  obtain ⟨edge, hedge, rfl⟩ := mem_map.1 he
  exact h.accesses (hwhole b edge hedge)

lemma whole_incoming (h : ∀ b, ∀ e ∈ edgeOut.getD b [], Whole f.locals.length e.2) (b : BlockId) :
    ∀ s ∈ incomingStates f edgeOut b, Whole f.locals.length s := by
  intro s hs
  obtain ⟨pred, -, hmem⟩ := mem_flatMap.1 hs
  obtain ⟨e, he, rfl⟩ := mem_map.1 hmem
  exact h pred e (mem_filter.1 he).1

include hwhole in
lemma MovesRise.edges_whole (h : MovesRise f origins facts) (b : BlockId) :
    ∀ e ∈ facts.edgeOut.getD b [], Whole f.locals.length e.2 := by
  intro e he
  rw [h.output b (ne_nil_of_mem he)] at he
  exact whole_blockEdgeStates hwhole (h.whole b) he

/-- Every state of the first list is below one of the second. -/
def ListBelow (ss ts : List MoveState) : Prop := ∀ s ∈ ss, ∃ t ∈ ts, StateBelow s t

lemma ListBelow.join {n : Nat} {ss ts : List MoveState} (h : ListBelow ss ts)
    (hss : ∀ s ∈ ss, Whole n s) (hts : ∀ t ∈ ts, Whole n t) (hempty : ss = [] → ts = []) :
    StateBelow (joinPredecessors ss n) (joinPredecessors ts n) := by
  by_cases hne : ss = []
  · rw [hne, hempty hne]
    exact .refl _
  rw [joinPredecessors_below_iff hss hne]
  intro s hs
  obtain ⟨t, ht, hst⟩ := h s hs
  have hupper := (joinPredecessors_below_iff hts (ne_nil_of_mem ht)).1 (.refl _) t ht
  exact hst.trans hupper

include hwhole in
/-- Higher facts for a block: more arrives everywhere. -/
lemma incomingStates_rise {oldIn : MoveState} (hold : edgeOut.getD b [] ≠ [] →
      edgeOut.getD b [] = blockEdgeStates f origins b oldIn ∧ StateBelow oldIn newIn)
    (t : BlockId) : ListBelow (incomingStates f edgeOut t)
      (incomingStates f (edgeOut.set b (blockEdgeStates f origins b newIn)) t) := by
  intro s hs
  obtain ⟨pred, hpred, hmem⟩ := mem_flatMap.1 hs
  obtain ⟨e, he, rfl⟩ := mem_map.1 hmem
  obtain ⟨hout, htarget⟩ := mem_filter.1 he
  by_cases hpb : b = pred
  · subst hpb
    obtain ⟨heq, hbelow⟩ := hold (ne_nil_of_mem hout)
    have hlt : b < edgeOut.length := by
      by_contra hge
      rw [getD_eq_getElem?_getD, getElem?_eq_none (not_lt.1 hge)] at hout
      cases hout
    rw [heq, blockEdgeStates_eq] at hout
    obtain ⟨edge, hedge, rfl⟩ := mem_map.1 hout
    refine ⟨(edgeAccesses f origins b edge).foldl Access.apply newIn, mem_flatMap.2 ⟨b, hpred,
      mem_map.2 ⟨(edge.1, (edgeAccesses f origins b edge).foldl Access.apply newIn),
        mem_filter.2 ⟨?_, htarget⟩, rfl⟩⟩, ?_⟩
    · rw [getD_set_self hlt, blockEdgeStates_eq]
      exact mem_map.2 ⟨edge, hedge, rfl⟩
    · exact hbelow.accesses fun a ha => (hwhole b edge hedge a ha).1
  · refine ⟨_, mem_flatMap.2 ⟨pred, hpred, mem_map.2 ⟨_, mem_filter.2 ⟨?_, htarget⟩, rfl⟩⟩, .refl _⟩
    rwa [getD_set_ne hpb]

include hwhole in
lemma MovesRise.set (h : MovesRise f origins facts) (hb : b < f.blocks.length)
    (hready : incomingStates f facts.edgeOut b = [] → f.predecessors b = []) :
    let newIn := joinPredecessors (incomingStates f facts.edgeOut b) f.locals.length
    MovesRise f origins ⟨facts.blockIn.set b newIn,
      facts.edgeOut.set b (blockEdgeStates f origins b newIn)⟩ := by
  intro newIn
  have hincoming := whole_incoming (h.edges_whole hwhole)
  have hnewIn : Whole f.locals.length newIn := whole_joinPredecessors (hincoming b)
  have hrise (t : BlockId) : ListBelow (incomingStates f facts.edgeOut t)
      (incomingStates f (facts.edgeOut.set b (blockEdgeStates f origins b newIn)) t) :=
    incomingStates_rise hwhole (fun hout => ⟨h.output b hout, h.below b hout⟩) t
  have hedges (t : BlockId) :
      ∀ e ∈ (facts.edgeOut.set b (blockEdgeStates f origins b newIn)).getD t [],
        Whole f.locals.length e.2 := by
    rcases getD_set_cases facts.edgeOut b (blockEdgeStates f origins b newIn) [] t with
      ⟨heq, -⟩ | ⟨-, -, heq⟩
    · rw [heq]
      exact h.edges_whole hwhole t
    · rw [heq]
      exact fun e he => whole_blockEdgeStates hwhole hnewIn he
  -- a block at which something arrives still has something arriving
  have hnone (t : BlockId)
      (ht : incomingStates f (facts.edgeOut.set b (blockEdgeStates f origins b newIn)) t = []) :
      incomingStates f facts.edgeOut t = [] := by
    by_contra hne
    obtain ⟨s, hs⟩ := exists_mem_of_ne_nil _ hne
    obtain ⟨s', hs', -⟩ := hrise t s hs
    rw [ht] at hs'
    cases hs'
  have hjoin (t : BlockId) (hpreds : incomingStates f facts.edgeOut t = [] →
    f.predecessors t = []) :
      StateBelow (joinPredecessors (incomingStates f facts.edgeOut t) f.locals.length)
        (joinPredecessors
          (incomingStates f (facts.edgeOut.set b (blockEdgeStates f origins b newIn)) t)
          f.locals.length) := by
    refine (hrise t).join (hincoming t) (whole_incoming hedges t) fun hempty => ?_
    simp [incomingStates, hpreds hempty]
  have hin (t : BlockId) : (facts.blockIn.set b newIn).getD t .new = facts.blockIn.getD t .new ∧
      t ≠ b ∨ t = b ∧ (facts.blockIn.set b newIn).getD t .new = newIn := by
    rcases getD_set_cases facts.blockIn b newIn .new t with
      ⟨heq, hne | hle⟩ | ⟨rfl, -, heq⟩
    · exact .inl ⟨heq, hne⟩
    · exact .inl ⟨heq, fun htb => absurd (h.lengths.1 ▸ hb) (not_lt.2 (htb ▸ hle))⟩
    · exact .inr ⟨rfl, heq⟩
  have hself : (facts.edgeOut.set b (blockEdgeStates f origins b newIn)).getD b [] =
      blockEdgeStates f origins b newIn := getD_set_self (h.lengths.2 ▸ hb)
  refine ⟨by simpa using h.lengths, fun t => ?_, fun t => ?_, fun t => ?_, fun t => ?_, fun t => ?_⟩
  all_goals
    rcases hin t with ⟨hinEq, htb⟩ | ⟨rfl, hinEq⟩
  · rw [hinEq]
    exact h.whole t
  · rw [hinEq]
    exact hnewIn
  · rw [hinEq, getD_set_ne htb.symm]
    exact h.output t
  · rw [hinEq, hself]
    exact fun _ => rfl
  · rw [hinEq, getD_set_ne htb.symm]
    exact h.fresh t
  · rw [hself, blockEdgeStates_eq, map_eq_nil_iff]
    exact fun hne heq => absurd heq hne
  · rw [getD_set_ne htb.symm]
    exact fun hne ht => h.started t hne (hnone t ht)
  · exact fun _ ht => hready (hnone t ht)
  · rw [hinEq, getD_set_ne htb.symm]
    exact fun hne => (h.below t hne).trans (hjoin t (h.started t hne))
  · rw [hinEq]
    exact fun _ => hjoin t hready

lemma movesRise_start : MovesRise f origins (moveStart f) := by
  have hout (b : BlockId) : (moveStart f).edgeOut.getD b [] = [] :=
    getElem?_getD_replicate_default_eq ..
  have hin (b : BlockId) : (moveStart f).blockIn.getD b .new = .new :=
    getElem?_getD_replicate_default_eq ..
  refine ⟨by simp [moveStart], fun b => ?_, fun b hb => absurd (hout b) hb, fun b _ _ => hin b,
    fun b hb => absurd (hout b) hb, fun b hb => absurd (hout b) hb⟩
  rw [hin]
  exact whole_new

/-! ## The number of visits -/

/-- The edges still to be queued: one for every target and local that may yet become maybe
moved, and one for every target of a block that has not been visited. -/
def movePotential (f : AmirFunc) (facts : MoveFacts) : Nat :=
  tablePotential (fun b (s : MoveState) => (f.block b).terminator.targets.length *
    (f.locals.length - s.maybeMoved.card)) facts.blockIn +
  tablePotential (fun b (edges : List (BlockId × MoveState)) =>
    (f.block b).terminator.targets.length * edges.isEmpty.toNat) facts.edgeOut

include hwhole in
/-- A change of the facts of a block that has edges pays for one of each. -/
lemma rounds_lt (h : MovesRise f origins facts) (hedges : (f.block b).terminator.edges ≠ [])
    (hnewIn : newIn = joinPredecessors (incomingStates f facts.edgeOut b) f.locals.length)
    (hchange : newIn ≠ facts.blockIn.getD b .new ∨
      blockEdgeStates f origins b newIn ≠ facts.edgeOut.getD b []) :
    (f.locals.length - newIn.maybeMoved.card) + (blockEdgeStates f origins b newIn).isEmpty.toNat <
      (f.locals.length - (facts.blockIn.getD b .new).maybeMoved.card) +
        (facts.edgeOut.getD b []).isEmpty.toNat := by
  have hnone : (blockEdgeStates f origins b newIn).isEmpty = false := by
    rw [isEmpty_eq_false_iff, blockEdgeStates_eq, ne_eq, map_eq_nil_iff]
    exact hedges
  rw [hnone, Bool.toNat_false]
  by_cases hfirst : facts.edgeOut.getD b [] = []
  · rw [hfirst, h.fresh b hedges hfirst]
    simp only [new, Finset.card_empty, isEmpty_nil, Bool.toNat_true]
    omega
  have hbelow := h.below b hfirst
  have hwholeIn := whole_joinPredecessors (whole_incoming (h.edges_whole hwhole) b)
  rw [← hnewIn] at hbelow hwholeIn
  have hne : facts.blockIn.getD b .new ≠ newIn := by
    intro heq
    rw [h.output b hfirst, heq] at hchange
    exact hchange.elim (absurd rfl) (absurd rfl)
  have hcard := card_maybeMoved_lt (h.whole b) hwholeIn hbelow hne
  have hle := hwholeIn.card_le
  omega

include hwhole in
/-- Every visit is paid for by a local that becomes maybe moved, or by being the first. -/
lemma visitMoves_pays (b : BlockId)
    (h : MovesRise f origins facts) : MovesRise f origins (visitMoves f origins facts b).1 ∧
      (visitMoves f origins facts b).2.length + movePotential f (visitMoves f origins facts b).1 ≤
        movePotential f facts := by
  unfold visitMoves
  dsimp only
  split
  · exact ⟨h, by simp⟩
  next hready =>
    split
    next hchange =>
      by_cases hb : b < f.blocks.length
      · have hready : incomingStates f facts.edgeOut b = [] → f.predecessors b = [] := by
          intro hnone
          by_contra hpreds
          exact hready ⟨isEmpty_eq_false_iff.2 hpreds, isEmpty_iff.2 hnone⟩
        refine ⟨h.set hwhole hb hready, ?_⟩
        have hin : facts.blockIn[b]? = some (facts.blockIn.getD b .new) := by
          simp [getElem?_eq_getElem (h.lengths.1.symm ▸ hb)]
        have hout : facts.edgeOut[b]? = some (facts.edgeOut.getD b []) := by
          simp [getElem?_eq_getElem (h.lengths.2.symm ▸ hb)]
        have hsetIn := tablePotential_set (f := fun b (s : MoveState) =>
          (f.block b).terminator.targets.length * (f.locals.length - s.maybeMoved.card)) hin
          (joinPredecessors (incomingStates f facts.edgeOut b) f.locals.length)
        have hsetOut := tablePotential_set (f := fun b (edges : List (BlockId × MoveState)) =>
          (f.block b).terminator.targets.length * edges.isEmpty.toNat) hout
          (blockEdgeStates f origins b
            (joinPredecessors (incomingStates f facts.edgeOut b) f.locals.length))
        have hqueue := length_filter_le (· < f.blocks.length) (f.block b).terminator.targets
        simp only [movePotential]
        by_cases hedges : (f.block b).terminator.edges = []
        · have htargets : (f.block b).terminator.targets.length = 0 := by
            rw [AmirTerminator.targets_eq_edges, hedges]
            rfl
          rw [htargets] at hqueue hsetIn hsetOut
          omega
        · have hmul := Nat.mul_le_mul_left (f.block b).terminator.targets.length
            (rounds_lt hwhole h hedges rfl hchange)
          rw [Nat.succ_eq_add_one, Nat.mul_add, Nat.mul_add, Nat.mul_add] at hmul
          omega
      · -- there is no such block, so nothing is queued and nothing is written
        have hb := not_lt.1 hb
        rw [set_eq_of_length_le (h.lengths.1 ▸ hb), set_eq_of_length_le (h.lengths.2 ▸ hb)]
        refine ⟨h, ?_⟩
        simp [AmirFunc.block_of_length_le hb, AmirBasicBlock.missing, AmirTerminator.targets]
    · exact ⟨h, by simp⟩

lemma movePotential_start :
    movePotential f (moveStart f) ≤ edgeCount f * (f.locals.length + 1) := by
  refine Nat.add_le_add (tablePotential_replicate_le (fun b => ?_) _) ?_
  · simp [new]
  have hfirst := tablePotential_replicate_le (w := fun b => (f.block b).terminator.targets.length)
    (f := fun b (edges : List (BlockId × MoveState)) =>
      (f.block b).terminator.targets.length * edges.isEmpty.toNat) (c := 1) (a := [])
    (fun b => by simp) f.blocks.length
  rwa [Nat.mul_one] at hfirst

/-- Enough room for one visit of every block, and one for every edge and local and one more for
every edge. -/
lemma moveGuard_holds (hwhole : MovesWholeLocals f (tempOrigins f))
    (hroom : f.locals.length ≠ 0 →
      f.blocks.length + edgeCount f * (f.locals.length + 1) ≤ moveLimit f) :
    ∃ blockIn, computeMoveIn f = .ok blockIn := by
  unfold computeMoveIn
  split
  · exact ⟨_, rfl⟩
  replace hroom := hroom (by omega)
  have hseeds : (moveSeeds f).length ≤ f.blocks.length :=
    (length_filter_le _ _).trans (by simp)
  have hsome := worklist_isSome (MovesRise f (tempOrigins f)) (movePotential f)
      (fun _ b => visitMoves_pays hwhole b) movesRise_start
      ((Nat.add_le_add hseeds movePotential_start).trans hroom)
  obtain ⟨facts, hfacts⟩ := Option.isSome_iff_exists.1 hsome
  rw [hfacts]
  exact ⟨_, rfl⟩

end Facts

end Arandu.Mir
