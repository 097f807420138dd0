import Arandu.Amir.Validate

/-!
# Rebuilding the statement table

Passes that delete or move statements build a new table: for every block they list the
statement ids it shall own, move these statements out of the old table one by one, and
give the block the range they ended up in. A statement can be moved once; an id that was
moved before, or lies outside the table, is an error that names the id.

`moveBlocks_ok` is the rule for all of them: if the listed ids are distinct and lie in the
table, the move succeeds, every block owns the listed statements in the listed order, and
the ranges follow each other.
-/

namespace Arandu.Mir

open Arandu.Amir List AmirFunc

def moveStmts : List InstrId → List (Option AmirStmt) → List AmirStmt →
    Except InstrId (List (Option AmirStmt) × List AmirStmt)
  | [], slots, new => .ok (slots, new)
  | idx :: ids, slots, new =>
    match slots.getD idx none with
    | some s => moveStmts ids (slots.set idx none) (new ++ [s])
    | none => .error idx

/-- Move block after block; each block gets the range of what was moved for it. -/
def moveBlocks : List (List InstrId) → List (Option AmirStmt) → List AmirStmt →
    Except InstrId (List AmirStmt × List DenseRange)
  | [], _, new => .ok (new, [])
  | ids :: parts, slots, new => do
    let (slots', new') ← moveStmts ids slots new
    let (stmts, ranges) ← moveBlocks parts slots' new'
    .ok (stmts, ⟨new.length, new'.length - new.length⟩ :: ranges)

/-- Give every block its new range. -/
def withRanges (blocks : List AmirBasicBlock) (ranges : List DenseRange) : List AmirBasicBlock :=
  blocks.zipWith (fun block range => { block with statements := range }) ranges

/-- Rebuild the table of a function so that block `b` owns the statements `parts[b]`. -/
def rebuildStmts (f : AmirFunc) (parts : List (List InstrId)) : Except InstrId AmirFunc := do
  let (stmts, ranges) ← moveBlocks parts (f.stmts.map some) []
  .ok { f with stmts := stmts, blocks := withRanges f.blocks ranges }

/-! ## When moving succeeds -/

variable {stmt : InstrId → AmirStmt} {parts : List (List InstrId)} {f : AmirFunc}
  {slots : List (Option AmirStmt)} {rs : List DenseRange} {start : Nat}

lemma moveStmts_ok {ids : List InstrId} (hnodup : ids.Nodup)
    (hslots : ∀ i ∈ ids, slots.getD i none = some (stmt i)) (new : List AmirStmt) :
    ∃ slots', moveStmts ids slots new = .ok (slots', new ++ ids.map stmt) ∧
      ∀ j, j ∉ ids → slots'.getD j none = slots.getD j none := by
  induction ids generalizing slots new with
  | nil => exact ⟨slots, by simp [moveStmts], fun _ _ => rfl⟩
  | cons i ids ih =>
    obtain ⟨hi, hids⟩ := nodup_cons.1 hnodup
    -- the slot is emptied; the other ids of the block still find theirs
    have hother : ∀ j, j ≠ i → (slots.set i none).getD j none = slots.getD j none := by
      intro j hj
      simp [getElem?_set_ne (Ne.symm hj)]
    have hleft : ∀ j ∈ ids, (slots.set i none).getD j none = some (stmt j) := by
      intro j hj
      rw [hother j (fun h => hi (h ▸ hj))]
      exact hslots j (mem_cons_of_mem _ hj)
    obtain ⟨slots', hrun, hrest⟩ := ih hids hleft (new ++ [stmt i])
    refine ⟨slots', ?_, ?_⟩
    · simp only [moveStmts, hslots i mem_cons_self, hrun]
      simp
    · intro j hj
      rw [mem_cons, not_or] at hj
      rw [hrest j hj.2, hother j hj.1]

def Covers (table : List AmirStmt) (stmts : List AmirStmt) (r : DenseRange) : Prop :=
  r.iterIds.map (fun i => table.getD i .nop) = stmts ∧ r.endUsize ≤ table.length

lemma covers_middle (xs ys zs : List AmirStmt) :
    Covers (xs ++ ys ++ zs) ys ⟨xs.length, ys.length⟩ := by
  refine ⟨?_, by simp [DenseRange.endUsize]⟩
  apply ext_getElem
  · simp
  · intro k hk hk'
    have hpast : ¬ xs.length + k < xs.length := by omega
    simp [DenseRange.iterIds, getElem?_append, hk', hpast]

def Consecutive : Nat → List DenseRange → Prop
  | _, [] => True
  | start, r :: rs => r.start = start ∧ Consecutive r.endUsize rs

lemma Consecutive.start_le (h : Consecutive start rs)
    {r : DenseRange} (hr : r ∈ rs) : start ≤ r.start := by
  induction rs generalizing start with
  | nil => cases hr
  | cons r₀ rs ih =>
    rcases mem_cons.1 hr with rfl | hr
    · exact Nat.le_of_eq h.1.symm
    · have hle := ih h.2 hr
      have hstart := h.1
      simp only [DenseRange.endUsize] at hle
      omega

lemma Consecutive.disjoint (h : Consecutive start rs)
    {j k : Nat} {r r' : DenseRange} (hj : rs[j]? = some r) (hk : rs[k]? = some r') {i : Nat}
    (hi : i ∈ r.iterIds) (hi' : i ∈ r'.iterIds) : j = k := by
  induction rs generalizing start j k with
  | nil => simp at hj
  | cons r₀ rs ih =>
    have hlater : ∀ {m : Nat} {s : DenseRange}, rs[m]? = some s → i ∈ r₀.iterIds →
        i ∉ s.iterIds := by
      intro m s hs h₀ hi
      have hle := h.2.start_le (mem_of_getElem? hs)
      rw [DenseRange.mem_iterIds] at h₀ hi
      omega
    cases j with
    | zero =>
      cases k with
      | zero => rfl
      | succ k =>
        cases hj
        exact absurd hi' (hlater hk hi)
    | succ j =>
      cases k with
      | zero =>
        cases hk
        exact absurd hi (hlater hj hi')
      | succ k => rw [ih h.2 hj hk]

/-- Distinct ids of the table can be moved, and every block owns what was listed for it. -/
lemma moveBlocks_ok (hnodup : parts.flatten.Nodup)
    (hslots : ∀ ids ∈ parts, ∀ i ∈ ids, slots.getD i none = some (stmt i)) (new : List AmirStmt) :
    ∃ ext ranges, moveBlocks parts slots new = .ok (new ++ ext, ranges) ∧
      List.Forall₂ (fun ids r => Covers (new ++ ext) (ids.map stmt) r) parts ranges ∧
      Consecutive new.length ranges := by
  induction parts generalizing slots new with
  | nil => exact ⟨[], [], by simp [moveBlocks], .nil, trivial⟩
  | cons ids parts ih =>
    obtain ⟨hhead, htail, hdisj⟩ := nodup_append.1 hnodup
    obtain ⟨slots', hrun, hother⟩ := moveStmts_ok hhead (hslots ids mem_cons_self) new
    have hleft : ∀ ids' ∈ parts, ∀ i ∈ ids', slots'.getD i none = some (stmt i) := by
      intro ids' hids' i hi
      have hmem : i ∈ parts.flatten := mem_flatten.2 ⟨ids', hids', hi⟩
      rw [hother i fun h => hdisj i h i hmem rfl]
      exact hslots ids' (mem_cons_of_mem _ hids') i hi
    obtain ⟨ext, ranges, hrest, hall, hcons⟩ := ih htail hleft (new ++ ids.map stmt)
    rw [append_assoc] at hrest hall
    refine ⟨_, ⟨new.length, (ids.map stmt).length⟩ :: ranges, ?_, .cons ?_ hall, rfl, ?_⟩
    · simp only [moveBlocks, hrun, Except.bind, hrest, bind, length_append, Nat.add_sub_cancel_left]
    · rw [← append_assoc]
      exact covers_middle _ _ _
    · simpa [DenseRange.endUsize] using hcons

/-! ## The rebuilt function -/

/-- What a new table changes of a function: only which statements a block owns. -/
structure Relaid (f : AmirFunc) (parts : List (List AmirStmt)) (g : AmirFunc) : Prop where
  length : g.blocks.length = f.blocks.length
  blockId : ∀ b, (g.block b).id = (f.block b).id
  params : ∀ b, (g.block b).params = (f.block b).params
  terminator : ∀ b, (g.block b).terminator = (f.block b).terminator
  stmts : ∀ b, g.blockStmts b = parts.getD b []
  stmtRange : ∀ b < g.blocks.length, (g.block b).statements.endUsize ≤ g.stmts.length
  stmtOwner : ∀ b b' k, k ∈ g.blockStmtIds b → k ∈ g.blockStmtIds b' → b = b'

lemma Relaid.edge {parts : List (List AmirStmt)} {g : AmirFunc} (h : Relaid f parts g) :
    g.Edge = f.Edge := by
  funext m n
  simp only [Edge, h.terminator]

lemma Relaid.blockParamsOf {parts : List (List AmirStmt)} {g : AmirFunc} (h : Relaid f parts g)
    (hpool : g.blockParams = f.blockParams) (b : BlockId) :
    g.blockParamsOf b = f.blockParamsOf b := by
  simp only [AmirFunc.blockParamsOf, paramsOf, h.params, hpool]

lemma Relaid.blocksFit {parts : List (List AmirStmt)} {g : AmirFunc} (h : Relaid f parts g)
    (hpool : g.blockParams = f.blockParams) (hfit : BlocksFit f) : BlocksFit g := by
  refine ⟨h.length ▸ hfit.nonempty, ?_, fun m n args hmem => ?_, h.stmtRange, h.stmtOwner⟩
  · rw [h.edge, h.length]
    exact hfit.targets
  · rw [h.blockParamsOf hpool]
    exact hfit.arity m n args (h.terminator m ▸ hmem)

lemma relaid_of_ranges {parts : List (List AmirStmt)} {table : List AmirStmt}
    {ranges : List DenseRange} (hlen : parts.length = f.blocks.length)
    (hall : List.Forall₂ (fun stmts r => Covers table stmts r) parts ranges)
    (hcons : Consecutive 0 ranges) :
    Relaid f parts { f with stmts := table, blocks := withRanges f.blocks ranges } := by
  have hranges : ranges.length = f.blocks.length := hall.length_eq.symm.trans hlen
  -- inside the table a block only changes its range, outside both tables agree
  have hin : ∀ b < f.blocks.length, ∃ r, ranges[b]? = some r ∧
      (withRanges f.blocks ranges).getD b .missing = { f.block b with statements := r } := by
    intro b hb
    simp [withRanges, getElem?_zipWith, getElem?_eq_getElem (hranges ▸ hb),
      block_eq_getElem hb, getElem?_eq_getElem hb]
  have hout : ∀ b, ¬ b < f.blocks.length →
      (withRanges f.blocks ranges).getD b .missing = .missing := by
    intro b hb
    simp [withRanges, getElem?_zipWith, getElem?_eq_none (Nat.le_of_not_lt hb)]
  have hcovers : ∀ b r, ranges[b]? = some r → Covers table (parts.getD b []) r := by
    intro b r hr
    obtain ⟨hb, rfl⟩ := List.getElem?_eq_some_iff.1 hr
    have hb' : b < parts.length := hall.length_eq ▸ hb
    simpa [getElem?_eq_getElem hb'] using (List.forall₂_iff_get.1 hall).2 b hb' hb
  have howner : ∀ b k, k ∈ ((withRanges f.blocks ranges).getD b .missing).statements.iterIds →
      ∃ r, ranges[b]? = some r ∧ k ∈ r.iterIds := by
    intro b k hk
    by_cases hb : b < f.blocks.length
    · obtain ⟨r, hr, heq⟩ := hin b hb
      rw [heq] at hk
      exact ⟨r, hr, hk⟩
    · rw [hout b hb] at hk
      cases hk
  have hkeep : ∀ b, ((withRanges f.blocks ranges).getD b .missing).id = (f.block b).id ∧
      ((withRanges f.blocks ranges).getD b .missing).params = (f.block b).params ∧
      ((withRanges f.blocks ranges).getD b .missing).terminator = (f.block b).terminator := by
    intro b
    by_cases hb : b < f.blocks.length
    · obtain ⟨r, -, heq⟩ := hin b hb
      rw [heq]
      exact ⟨rfl, rfl, rfl⟩
    · rw [hout b hb, block_of_length_le (Nat.le_of_not_lt hb)]
      exact ⟨rfl, rfl, rfl⟩
  refine ⟨by simp [withRanges, hranges], fun b => (hkeep b).1, fun b => (hkeep b).2.1,
    fun b => (hkeep b).2.2, ?_, ?_, ?_⟩
  · intro b
    by_cases hb : b < f.blocks.length
    · obtain ⟨r, hr, heq⟩ := hin b hb
      simp only [blockStmts, blockStmtIds, block, heq]
      exact (hcovers b r hr).1
    · have hnil : parts.getD b [] = [] := by
        simp [getElem?_eq_none (hlen ▸ Nat.le_of_not_lt hb)]
      simp only [blockStmts, blockStmtIds, block, hout b hb, hnil]
      rfl
  · intro b hb
    obtain ⟨r, hr, heq⟩ := hin b (by simpa [withRanges, hranges] using hb)
    simp only [block, heq]
    exact (hcovers b r hr).2
  · intro b b' k hk hk'
    obtain ⟨r, hr, hkr⟩ := howner b k hk
    obtain ⟨r', hr', hkr'⟩ := howner b' k hk'
    exact hcons.disjoint hr hr' hkr hkr'

/-- What rebuilding changes of a function: only who owns which statements. -/
structure Rebuilt (f : AmirFunc) (parts : List (List InstrId)) (g : AmirFunc) : Prop extends
    Relaid f (parts.map (List.map f.stmt)) g where
  symbol : g.symbol = f.symbol
  temps : g.temps = f.temps
  pool : g.blockParams = f.blockParams
  cfg : g.cfg = f.cfg

lemma Rebuilt.blockStmts {g : AmirFunc} (h : Rebuilt f parts g) (b : BlockId) :
    g.blockStmts b = (parts.getD b []).map f.stmt := by
  rw [h.stmts, getD_eq_getElem?_getD, getElem?_map, getD_eq_getElem?_getD]
  cases parts[b]? <;> rfl

lemma Rebuilt.blockParamsOf {g : AmirFunc} (h : Rebuilt f parts g) (b : BlockId) :
    g.blockParamsOf b = f.blockParamsOf b :=
  h.toRelaid.blockParamsOf h.pool b

lemma rebuildStmts_ok (hlen : parts.length = f.blocks.length) (hnodup : parts.flatten.Nodup)
    (hrange : ∀ ids ∈ parts, ∀ i ∈ ids, i < f.stmts.length) :
    ∃ g, rebuildStmts f parts = .ok g ∧ Rebuilt f parts g := by
  have hslots : ∀ ids ∈ parts, ∀ i ∈ ids, (f.stmts.map some).getD i none = some (f.stmt i) := by
    intro ids hids i hi
    have hlt := hrange ids hids i hi
    simp [getElem?_eq_getElem hlt, stmt_eq_getElem hlt]
  obtain ⟨table, ranges, hrun, hall, hcons⟩ := moveBlocks_ok hnodup hslots []
  have hall := List.forall₂_map_left_iff.2 hall
  have hrelaid := relaid_of_ranges (f := f) (by rw [length_map, hlen]) hall hcons
  exact ⟨{ f with stmts := table, blocks := withRanges f.blocks ranges },
    by rw [rebuildStmts, hrun]; rfl, hrelaid, rfl, rfl, rfl, rfl⟩

/-! ## A table laid out from lists of statements -/

/-- The ranges of lists of statements that are put one after another. -/
def rangesFrom : Nat → List (List AmirStmt) → List DenseRange
  | _, [] => []
  | start, stmts :: parts => ⟨start, stmts.length⟩ :: rangesFrom (start + stmts.length) parts

/-- Give block `b` the statements `parts[b]`, in a table of their own. -/
def withStmts (f : AmirFunc) (parts : List (List AmirStmt)) : AmirFunc :=
  { f with stmts := parts.flatten, blocks := withRanges f.blocks (rangesFrom 0 parts) }

lemma relaid_withStmts {parts : List (List AmirStmt)} (hlen : parts.length = f.blocks.length) :
    Relaid f parts (withStmts f parts) := by
  -- the ranges of a suffix of the parts, behind the statements of those before
  have hranges : ∀ (parts : List (List AmirStmt)) (before : List AmirStmt),
      List.Forall₂ (fun stmts r => Covers (before ++ parts.flatten) stmts r) parts
        (rangesFrom before.length parts) ∧
      Consecutive before.length (rangesFrom before.length parts) := by
    intro parts
    induction parts with
    | nil => exact fun before => ⟨.nil, trivial⟩
    | cons stmts parts ih =>
      intro before
      have hrest := ih (before ++ stmts)
      rw [length_append, append_assoc] at hrest
      refine ⟨.cons ?_ hrest.1, rfl, hrest.2⟩
      rw [flatten_cons, ← append_assoc]
      exact covers_middle _ _ _
  obtain ⟨hall, hcons⟩ := hranges parts []
  exact relaid_of_ranges hlen hall hcons

end Arandu.Mir
