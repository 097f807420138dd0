import Arandu.Mir.Loops.Discover
import Arandu.Mir.StmtTable
import Mathlib.Data.List.Sort

/-!
# Loop-invariant code motion

`licm` moves assignments whose operands are fixed while a loop runs to the end of the loop's
preheader. Loops are discovered once and treated from the smallest body to the largest; a moved
statement leaves a `Nop` behind.

`hoistLoop_hoisted` says what treating one loop does: the statements that `moved` picks are
appended to the preheader, nothing else changes.
-/

namespace Arandu.Mir

open Arandu.Amir Arandu.Library List AmirFunc Dominators

variable {doms : Dominators} {id : InstrId}

/-! ## The pass -/

/-- Safe to execute earlier than it appears. -/
def isSpeculatable : AmirRvalue → Bool
  | .use (.move _) => false
  | .use _ => true
  | .binary op _ _ =>
    match op with
    | .add | .sub | .mul | .equal | .notEqual | .lt | .gt | .ltEqual | .gtEqual
    | .bitAnd | .bitOr | .bitXor => true
    | _ => false
  | .unary op _ =>
    match op with
    | .not | .bitNot => true
    | _ => false
  | _ => false

/-- `operands`, of the rvalues that may be moved. -/
def speculatedOperands : AmirRvalue → List AmirOperand
  | .use op => [op]
  | .binary _ left right => [left, right]
  | .unary _ operand => [operand]
  | _ => []

variable (f : AmirFunc) (lp : LoopInfo)

def operandIsInvariant (doms : Dominators) : AmirOperand → Bool
  | .copy t => isInvariant f lp doms t
  | .move _ => false
  | .constant _ | .functionRef _ | .globalRef _ => true

/-- Definitions of a temp, those as an input of the function included. -/
def definitionTotal (t : TempId) : Nat :=
  (f.params ++ f.receiver.toList).count t + (definitionBlocks f t).length

/-- A statement of the loop that may be moved, for what `hoist_loop` checks of it. -/
def isCandidate (doms : Dominators) : AmirStmt → Bool
  | .assign lhs rhs =>
    !isInvariant f lp doms lhs && definitionTotal f lhs == 1 &&
      (f.temps[lhs]?).any AmirTemp.isCopy && isSpeculatable rhs &&
      (speculatedOperands rhs).all (operandIsInvariant f lp doms)
  | _ => false

def loopCandidates (doms : Dominators) : List (BlockId × InstrId) :=
  lp.body.flatMap fun b =>
    ((f.blockStmtIds b).filter fun id => (f.stmts[id]?).any (isCandidate f lp doms)).map
      fun id => (b, id)

def candidateLe (order : List BlockId) (x y : BlockId × InstrId) : Prop :=
  order.idxOf x.1 < order.idxOf y.1 ∨ order.idxOf x.1 = order.idxOf y.1 ∧ x.2 ≤ y.2

instance (order : List BlockId) : DecidableRel (candidateLe order) :=
  fun _ _ => inferInstanceAs (Decidable (_ ∨ _))

def sortedCandidates (doms : Dominators) (order : List BlockId) : List InstrId :=
  ((loopCandidates f lp doms).insertionSort (candidateLe order)).map Prod.snd

def hoistedParts (ids : List InstrId) : List (List AmirStmt) :=
  (List.range f.blocks.length).map fun b =>
    if b = lp.preheader then
      (f.blockStmtIds b).filterMap (fun id => f.stmts[id]?) ++ ids.filterMap fun id => f.stmts[id]?
    else
      (f.blockStmtIds b).filterMap fun id => if id ∈ ids then some .nop else f.stmts[id]?

def hoistLoop (doms : Dominators) (order : List BlockId) : Bool × AmirFunc :=
  let ids := sortedCandidates f lp doms order
  if ids.isEmpty then (false, f)
  else
    let g := withStmts f (hoistedParts f lp ids)
    (true, { g with cfg := computeCfgEdges g.blocks })

def hoistLoops (order : List BlockId) : List LoopInfo → AmirFunc → Option (Bool × AmirFunc)
  | [], f => some (false, f)
  | lp :: loops, f => do
    let fresh ← new f
    let (changed, f') := hoistLoop f lp fresh order
    let (rest, f'') ← hoistLoops order loops f'
    some (changed || rest, f'')

def licmLoops (doms : Dominators) : List LoopInfo :=
  (discoverLoops f doms).insertionSort fun a b => a.body.length ≤ b.body.length

def licm : Option (Bool × AmirFunc) :=
  if f.blocks.isEmpty || f.stmts.isEmpty then some (false, f)
  else do
    let doms ← new f
    hoistLoops (reversePostOrder f) (licmLoops f doms) f

/-! ## Temps with one definition -/

structure UniqueDef (f : AmirFunc) (t : TempId) (b : BlockId) (k : Nat) : Prop where
  input : t ∉ f.params ∧ f.receiver ≠ some t
  param : ∀ d, t ∉ (f.blockParamsOf d).map BlockParam.id
  stmt : ∀ d j s, (f.blockStmts d)[j]? = some s → s.def? = some t → d = b ∧ j = k

section Unique

variable {α β : Type} {l : List α} {i j : Nat} {x y : α}

lemma pairwise_of_length_le_one (h : l.length ≤ 1) : l.Pairwise fun _ _ => False :=
  pairwise_iff_getElem.2 fun i j _ hj hlt => by omega

lemma index_unique_flatMap {g : α → List β} (h : (l.flatMap g).length ≤ 1) (hx : l[i]? = some x)
    (hy : l[j]? = some y) (hgx : g x ≠ []) (hgy : g y ≠ []) : i = j := by
  obtain ⟨b, hb⟩ := exists_mem_of_ne_nil _ hgx
  obtain ⟨c, hc⟩ := exists_mem_of_ne_nil _ hgy
  have hrel := (pairwise_flatMap.1 (pairwise_of_length_le_one h)).2
  exact index_unique hrel hx hy (fun h => h b hb c hc) fun h => h c hc b hb

lemma index_unique_filter {p : α → Bool} (h : (l.filter p).length ≤ 1) (hx : l[i]? = some x)
    (hy : l[j]? = some y) (hpx : p x = true) (hpy : p y = true) : i = j := by
  have hrel := pairwise_filter.1 (pairwise_of_length_le_one h)
  exact index_unique hrel hx hy (fun h => h hpx hpy) fun h => h hpy hpx

attribute [local simp] blockDefinitions

lemma uniqueDef_of_total {f : AmirFunc} (hids : ∀ b < f.blocks.length, (f.block b).id = b)
    {t : TempId} (h : definitionTotal f t = 1) {b : BlockId} {k : Nat} {s : AmirStmt}
    (hb : b < f.blocks.length) (hs : (f.blockStmts b)[k]? = some s) (hdef : s.def? = some t) :
    UniqueDef f t b k := by
  have hmem : b ∈ definitionBlocks f t :=
    (mem_definitionBlocks hids hb).2 (.inr ⟨s, mem_of_getElem? hs, hdef⟩)
  have hpos := length_pos_of_mem hmem
  unfold definitionTotal at h
  have hnone : t ∉ f.params ++ f.receiver.toList := count_eq_zero.1 (by omega)
  have hlen : (definitionBlocks f t).length ≤ 1 := by omega
  -- what a block contributes to the list
  have hpart : ∀ d < f.blocks.length, (blockDefinitions f t (f.block d)).length ≤ 1 := by
    intro d hd
    refine le_trans ?_ hlen
    exact (sublist_flatten_of_mem (mem_map_of_mem (block_mem hd))).length_le
  have hsome : ∀ {d j : Nat} {s' : AmirStmt}, (f.blockStmts d)[j]? = some s' →
      s'.def? = some t → (f.blockStmts (f.block d).id).filter
        (fun stmt => stmt.def? == some t) ≠ [] := by
    intro d j s' hs' hdef'
    rw [hids d (lt_of_mem_blockStmts (mem_of_getElem? hs'))]
    exact ne_nil_of_mem (mem_filter.2 ⟨mem_of_getElem? hs', by simp [hdef']⟩)
  refine ⟨by simpa using hnone, fun d hparam => ?_, fun d j s' hs' hdef' => ?_⟩
  · obtain ⟨p, hp, rfl⟩ := mem_map.1 hparam
    have hd := lt_of_mem_blockParamsOf hp
    have hpne : (f.paramsOf (f.block d).params).filter (fun q => q.id == p.id) ≠ [] :=
      ne_nil_of_mem (mem_filter.2 ⟨hp, by simp⟩)
    have hdb : d = b := index_unique_flatMap hlen (getElem?_blocks hd) (getElem?_blocks hb)
      (by simp [hpne]) (by simp [hsome hs hdef])
    subst hdb
    have hone := hpart d hd
    rw [blockDefinitions, length_append, length_map, length_map] at hone
    have := length_pos_iff.2 hpne
    have := length_pos_iff.2 (hsome hs hdef)
    omega
  · have hd := lt_of_mem_blockStmts (mem_of_getElem? hs')
    have hdb : d = b := index_unique_flatMap hlen (getElem?_blocks hd) (getElem?_blocks hb)
      (by simp [hsome hs' hdef']) (by simp [hsome hs hdef])
    subst hdb
    have hone := hpart d hd
    rw [blockDefinitions, length_append, length_map, length_map, hids d hd] at hone
    exact ⟨rfl, index_unique_filter (p := fun stmt : AmirStmt => stmt.def? == some t)
      (by omega) hs' hs (by simp [hdef']) (by simp [hdef])⟩

end Unique

/-! ## What treating one loop does -/

/-- Statement `id` stands at position `k` of block `b` of the loop and may be moved: it is the
only definition of its temp, and its operands are fixed while the loop runs. -/
structure Movable (f : AmirFunc) (lp : LoopInfo) (id : InstrId) (b : BlockId) (k : Nat)
    (t : TempId) (rv : AmirRvalue) : Prop where
  inside : b ∈ lp.body
  position : (f.blockStmtIds b)[k]? = some id
  stmt : f.stmt id = .assign t rv
  speculatable : isSpeculatable rv = true
  operands : ∀ o ∈ operandTemps rv.operands, LoopInvariant f lp o
  unique : UniqueDef f t b k

/-- The statements `ids` of the loop now stand at the end of the preheader. -/
structure Hoisted (f : AmirFunc) (lp : LoopInfo) (ids : List InstrId) (g : AmirFunc) : Prop where
  length : g.blocks.length = f.blocks.length
  temps : g.temps = f.temps
  inputs : g.params = f.params ∧ g.receiver = f.receiver
  params : ∀ b, g.blockParamsOf b = f.blockParamsOf b
  terminator : ∀ b, (g.block b).terminator = (f.block b).terminator
  stmts : ∀ b, b ≠ lp.preheader →
    g.blockStmts b = (f.blockStmtIds b).map fun id => if id ∈ ids then .nop else f.stmt id
  preheader : g.blockStmts lp.preheader = f.blockStmts lp.preheader ++ ids.map f.stmt
  movable : ∀ id ∈ ids, ∃ b k t rv, Movable f lp id b k t rv

section Hoisting

variable {f : AmirFunc} {lp : LoopInfo} {order : List BlockId}

lemma operandTemps_speculated {rv : AmirRvalue} (h : isSpeculatable rv = true) :
    rv.operands = speculatedOperands rv := by
  unfold isSpeculatable at h
  split at h <;> first | rfl | cases h

lemma mem_sortedCandidates (h : id ∈ sortedCandidates f lp doms order) :
    ∃ b ∈ lp.body, id ∈ f.blockStmtIds b ∧ ∃ s, f.stmts[id]? = some s ∧
      isCandidate f lp doms s = true := by
  obtain ⟨⟨b, id'⟩, hmem, rfl⟩ := mem_map.1 h
  obtain ⟨b', hb', hmap⟩ := mem_flatMap.1 ((mem_insertionSort _).1 hmem)
  obtain ⟨id'', hid, heq⟩ := mem_map.1 hmap
  cases heq
  obtain ⟨hid, hcandidate⟩ := mem_filter.1 hid
  refine ⟨b, hb', hid, ?_⟩
  cases hs : f.stmts[id']? with
  | none => simp [hs] at hcandidate
  | some s => exact ⟨s, rfl, by simpa [hs] using hcandidate⟩

lemma movable_of_candidate (hwf : WellFormed f) (hcfg : f.CfgCovers)
    (hdoms : new f = some doms) (hloop : NaturalLoop f lp)
    (h : id ∈ sortedCandidates f lp doms order) : ∃ b k t rv, Movable f lp id b k t rv := by
  obtain ⟨b, hb, hid, s, hs, hcandidate⟩ := mem_sortedCandidates h
  obtain ⟨hlt, hget⟩ := List.getElem?_eq_some_iff.1 hs
  have hstmt : f.stmt id = s := by rw [stmt_eq_getElem hlt, hget]
  obtain ⟨k, hk⟩ := getElem?_of_mem hid
  unfold isCandidate at hcandidate
  split at hcandidate
  next t rv =>
    simp only [Bool.and_eq_true, beq_iff_eq] at hcandidate
    obtain ⟨⟨⟨⟨-, htotal⟩, -⟩, hspec⟩, hops⟩ := hcandidate
    have hpos : (f.blockStmts b)[k]? = some (.assign t rv) := by
      rw [blockStmts, getElem?_map, hk, Option.map_some, hstmt]
    refine ⟨b, k, t, rv, hb, hk, hstmt, hspec, fun o ho => ?_,
      uniqueDef_of_total hwf.blockId htotal (hloop.inside b hb) hpos rfl⟩
    rw [operandTemps_speculated hspec] at ho
    obtain ⟨op, hop, hot⟩ := mem_operandTemps.1 ho
    have hinv := all_eq_true.1 hops op hop
    -- an operand that reads a temp and passes the check is a copy of an invariant
    cases op with
    | copy t' =>
      cases hot
      exact loopInvariant_of_isInvariant hwf.blockId hcfg hwf.targets hdoms hloop hinv
    | move t' => cases hinv
    | constant c => cases hot
    | functionRef s => cases hot
    | globalRef s => cases hot
  · cases hcandidate

lemma WellFormed.lt_of_blockStmtIds (hwf : WellFormed f) {b : BlockId}
    (h : id ∈ f.blockStmtIds b) : id < f.stmts.length := by
  have hrange := hwf.stmtRange b (lt_of_mem_blockStmtIds h)
  have := (DenseRange.mem_iterIds.1 h).2
  exact lt_of_lt_of_le this hrange

lemma filterMap_eq_map_of_some {α β : Type} {g : α → Option β} {h : α → β}
    {l : List α} (hg : ∀ a ∈ l, g a = some (h a)) : l.filterMap g = l.map h := by
  rw [← filterMap_eq_map, filterMap_congr hg]
  rfl

lemma Relaid.wellFormed {parts : List (List AmirStmt)} {g : AmirFunc} (h : Relaid f parts g)
    (htemps : g.temps = f.temps) (hpool : g.blockParams = f.blockParams) (hwf : WellFormed f) :
    WellFormed g := by
  refine ⟨h.blocksFit hpool hwf.toBlocksFit, ?_, ?_, ?_, ?_⟩
  · intro b hb
    rw [h.params, hpool]
    exact hwf.paramRange b (h.length ▸ hb)
  · intro b hb
    rw [h.blockId]
    exact hwf.blockId b (h.length ▸ hb)
  · intro b hb hne hreach
    rw [h.terminator]
    exact hwf.dead b (h.length ▸ hb) hne (h.edge ▸ hreach)
  · intro b p hp
    rw [htemps]
    exact hwf.paramTemp b p (h.blockParamsOf hpool b ▸ hp)

lemma hoisted_refl (f : AmirFunc) (lp : LoopInfo) : Hoisted f lp [] f := by
  refine ⟨rfl, rfl, ⟨rfl, rfl⟩, fun _ => rfl, fun _ => rfl, fun b _ => ?_, by simp, nofun⟩
  rfl

lemma hoistLoop_hoisted (hwf : WellFormed f) (hcfg : f.CfgCovers)
    (hdoms : new f = some doms) (hloop : NaturalLoop f lp) (order : List BlockId) :
    WellFormed (hoistLoop f lp doms order).2 ∧ (hoistLoop f lp doms order).2.CfgCovers ∧
      Hoisted f lp (sortedCandidates f lp doms order) (hoistLoop f lp doms order).2 := by
  unfold hoistLoop
  dsimp only
  split
  next hempty =>
    rw [isEmpty_iff.1 hempty]
    exact ⟨hwf, hcfg, hoisted_refl f lp⟩
  · have hlen : (hoistedParts f lp (sortedCandidates f lp doms order)).length =
        f.blocks.length := by
      simp [hoistedParts]
    have hrelaid := relaid_withStmts hlen
    have hwf' := hrelaid.wellFormed rfl rfl hwf
    have hmovable : ∀ id ∈ sortedCandidates f lp doms order, ∃ b k t rv, Movable f lp id b k t rv :=
      fun id hid => movable_of_candidate hwf hcfg hdoms hloop hid
    have hstmt : ∀ b, ∀ id ∈ f.blockStmtIds b, f.stmts[id]? = some (f.stmt id) := by
      intro b id hid
      have hlt := WellFormed.lt_of_blockStmtIds hwf hid
      rw [getElem?_eq_getElem hlt, stmt_eq_getElem hlt]
    have hparts : ∀ b < f.blocks.length,
        (hoistedParts f lp (sortedCandidates f lp doms order)).getD b [] =
          if b = lp.preheader then
            f.blockStmts b ++ (sortedCandidates f lp doms order).map f.stmt
          else (f.blockStmtIds b).map fun id =>
            if id ∈ sortedCandidates f lp doms order then .nop else f.stmt id := by
      intro b hb
      simp only [hoistedParts, getD_eq_getElem?_getD, getElem?_map,
        getElem?_range hb, Option.map_some]
      split
      · rw [filterMap_eq_map_of_some (hstmt b), filterMap_eq_map_of_some fun id hid => ?_]
        · rfl
        · obtain ⟨b', k, t, rv, hmove⟩ := hmovable id hid
          exact hstmt b' id (mem_of_getElem? hmove.position)
      · refine filterMap_eq_map_of_some fun id hid => ?_
        split
        · rfl
        · exact hstmt b id hid
    refine ⟨?_, ?_, hrelaid.length, rfl, ⟨rfl, rfl⟩, fun b => ?_, hrelaid.terminator,
      fun b hb => ?_, ?_, hmovable⟩
    · exact ⟨⟨hwf'.nonempty, hwf'.targets, hwf'.arity, hwf'.stmtRange, hwf'.stmtOwner⟩,
        hwf'.paramRange, hwf'.blockId, hwf'.dead, hwf'.paramTemp⟩
    · exact cfgCovers_of_compute rfl hwf'.targets
    · show f.paramsOf ((withStmts f _).block b).params = f.paramsOf (f.block b).params
      rw [hrelaid.params b]
    · refine (hrelaid.stmts b).trans ?_
      by_cases hlt : b < f.blocks.length
      · rw [hparts b hlt, if_neg hb]
      · have hge := not_lt.1 hlt
        rw [getD_eq_getElem?_getD, getElem?_eq_none (hlen.symm ▸ hge),
          blockStmtIds, block_of_length_le hge]
        rfl
    · refine (hrelaid.stmts _).trans ?_
      rw [hparts _ hloop.preheader, if_pos rfl]

end Hoisting

end Arandu.Mir
