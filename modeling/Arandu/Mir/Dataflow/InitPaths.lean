import Arandu.Amir.Validate
import Arandu.Mir.Dataflow.DefiniteInit
import Mathlib.Data.List.GetD
import Mathlib.Data.List.Sort

/-!
# Definite initialisation and paths

What `computeInitIn` computes is defined by paths: a local is in the set of a block if, on every
path to it, the last of the path's events of that local initialises it. Root stores and block
parameters initialise a local, `StorageDead` ends it.

The solver starts with everything initialised and only takes locals away. `Solved` says what holds
of its facts and its queue: nothing is taken away that all paths initialise, and a block outside
the queue agrees with its predecessors.
-/

namespace Arandu.Mir

open Arandu.Amir Arandu.Library List AmirFunc

variable {queue : List BlockId} {out : List (Finset LocalId)} {l : LocalId}

/-! ## Events of a local -/

/-- What a statement does to a local: initialise it, end it, or neither. -/
def initEvent (l : LocalId) : AmirStmt → Option Bool
  | .store lhs _ => if lhs.projections.isEmpty ∧ lhs.localId = l then some true else none
  | .storageDead k => if k = l then some false else none
  | _ => none

variable (f : AmirFunc)

def eventsBefore (l : LocalId) (b : BlockId) (k : Nat) : List Bool :=
  ((f.blockParamsOf b).filter (·.localId = l)).map (fun _ => true) ++
    ((f.blockStmts b).take k).filterMap (initEvent l)

def blockEvents (l : LocalId) (b : BlockId) : List Bool :=
  eventsBefore f l b (f.blockStmts b).length

/-- The events of whole blocks, listed last block first. -/
def pathEvents (l : LocalId) (path : List BlockId) : List Bool :=
  path.reverse.flatMap (blockEvents f l)

/-- The last event of the path initialises the local. -/
def InitOnPath (l : LocalId) (path : List BlockId) : Prop :=
  (pathEvents f l path).getLast? = some true

/-- The blocks passed on a path from the entry to the block, which is not among them; a block that
is not reachable is looked at on its own. -/
def PathTo (b : BlockId) (path : List BlockId) : Prop :=
  Walk f.Edge 0 b (b :: path) ∨ (¬ Reachable f.Edge 0 b ∧ path = [])

/-- Initialised before statement `k` of the block on every path. -/
def InitBefore (l : LocalId) (b : BlockId) (k : Nat) : Prop :=
  ∀ path, PathTo f b path → (pathEvents f l path ++ eventsBefore f l b k).getLast? = some true

section Events

variable {f : AmirFunc} {l : LocalId} {b : BlockId} {s : Finset LocalId}

/-- The last event decides; without events the start does. -/
def initAfter (start : Bool) (events : List Bool) : Bool := events.getLast?.getD start

lemma initAfter_append (start : Bool) (xs ys : List Bool) :
    initAfter start (xs ++ ys) = initAfter (initAfter start xs) ys := by
  unfold initAfter
  rw [getLast?_append]
  cases ys.getLast? <;> rfl

lemma mem_transferInitStmt (stmt : AmirStmt) :
    decide (l ∈ transferInitStmt stmt s) = (initEvent l stmt).getD (decide (l ∈ s)) := by
  cases stmt with
  | store lhs rhs =>
    simp only [transferInitStmt, initEvent]
    by_cases hroot : lhs.projections.isEmpty
    · by_cases hl : lhs.localId = l
      · simp [hroot, hl]
      · simp [hroot, hl, Ne.symm hl]
    · simp [hroot]
  | storageDead k =>
    by_cases hk : k = l
    · simp [transferInitStmt, initEvent, hk]
    · simp [transferInitStmt, initEvent, hk, Ne.symm hk]
  | _ => rfl

lemma mem_foldl_transferInitStmt (stmts : List AmirStmt) :
    decide (l ∈ stmts.foldl (fun s stmt => transferInitStmt stmt s) s) =
      initAfter (decide (l ∈ s)) (stmts.filterMap (initEvent l)) := by
  induction stmts generalizing s with
  | nil => rfl
  | cons stmt stmts ih =>
    rw [foldl_cons, ih, mem_transferInitStmt]
    cases hevent : initEvent l stmt with
    | none => rw [filterMap_cons_none hevent]; rfl
    | some e =>
      rw [filterMap_cons_some hevent]
      exact (initAfter_append (decide (l ∈ s)) [e] _).symm

lemma mem_initParams : decide (l ∈ initParams f b s) = initAfter (decide (l ∈ s))
      (((f.blockParamsOf b).filter (·.localId = l)).map fun _ => true) := by
  unfold initParams
  generalize f.blockParamsOf b = params
  induction params generalizing s with
  | nil => rfl
  | cons p params ih =>
    rw [foldl_cons, ih]
    by_cases hp : p.localId = l
    · rw [filter_cons_of_pos (by simpa using hp), map_cons, ← singleton_append,
        initAfter_append]
      simp [initAfter, hp]
    · rw [filter_cons_of_neg (by simpa using hp)]
      simp [Ne.symm hp]

lemma mem_initBefore (k : Nat) :
    l ∈ ((f.blockStmts b).take k).foldl (fun s stmt => transferInitStmt stmt s)
      (initParams f b s) ↔ initAfter (decide (l ∈ s)) (eventsBefore f l b k) = true := by
  rw [eventsBefore, initAfter_append, ← mem_initParams, ← mem_foldl_transferInitStmt,
    decide_eq_true_iff]

lemma mem_transferInitBlock :
    l ∈ transferInitBlock f b s ↔ initAfter (decide (l ∈ s)) (blockEvents f l b) = true := by
  rw [blockEvents, ← mem_initBefore, take_length, transferInitBlock]

lemma initAfter_forall {P : List BlockId → Prop} (hne : ∃ path, P path) {events : List Bool}
    (h : l ∈ s ↔ ∀ path, P path → InitOnPath f l path) : initAfter (decide (l ∈ s)) events = true ↔
      ∀ path, P path → (pathEvents f l path ++ events).getLast? = some true := by
  obtain ⟨path₀, hpath₀⟩ := hne
  simp only [getLast?_append, initAfter]
  cases events.getLast? with
  | none => exact decide_eq_true_iff.trans h
  | some e =>
    simp only [Option.some_or, Option.some.injEq]
    exact ⟨fun he _ _ => he, fun hall => hall path₀ hpath₀⟩

lemma pathEvents_cons (path : List BlockId) :
    pathEvents f l (b :: path) = pathEvents f l path ++ blockEvents f l b := by
  simp [pathEvents]

end Events

/-! ## The solver -/

section Solver

variable {f : AmirFunc} {facts : InitFacts} {b : BlockId} {l : LocalId}

/-- What holds of the facts while `queue` is still to be visited. -/
structure Solved (f : AmirFunc) (facts : InitFacts) (queue : List BlockId) : Prop where
  blockIn : facts.blockIn.length = f.blocks.length
  blockOut : facts.blockOut.length = f.blocks.length
  kept : ∀ l b, b < f.blocks.length → l < f.locals.length → Reachable f.Edge 0 b →
    (∀ path, Walk f.Edge 0 b path → InitOnPath f l path) → l ∈ facts.blockOut.getD b ∅
  settled : ∀ b < f.blocks.length, b ∉ queue →
    facts.blockIn.getD b ∅ = joinInit f facts.blockOut b ∧
      facts.blockOut.getD b ∅ = transferInitBlock f b (joinInit f facts.blockOut b)

variable (hwf : WellFormed f) (hcfg : f.CfgExact)

include hwf hcfg

section

variable (h : Solved f facts queue) (hl : l < f.locals.length) (hreach : Reachable f.Edge 0 b)

include h hl hreach

lemma Solved.join (hpaths : ∀ path, Walk f.Edge 0 b (b :: path) → InitOnPath f l path) :
    l ∈ joinInit f facts.blockOut b := by
  have hb : b ≠ 0 := by
    rintro rfl
    cases hpaths [] .start
  obtain ⟨m, -, -, hm⟩ := hreach.exists_pred_ne hb
  refine mem_joinInit.2 ⟨hb, ne_nil_of_mem (hcfg.mem_predecessors.2 hm), hl, ?_⟩
  intro m hm
  have hedge := hcfg.mem_predecessors.1 hm
  exact h.kept l m (lt_of_edge hedge) hl (hwf.reachable_of_edge hedge)
    fun path hpath => hpaths path (hpath.step hedge)

lemma Solved.transfer (hpaths : ∀ path, Walk f.Edge 0 b path → InitOnPath f l path) :
    l ∈ transferInitBlock f b (joinInit f facts.blockOut b) := by
  rw [mem_transferInitBlock]
  obtain ⟨path₀, hwalk₀⟩ := hreach
  obtain ⟨path₁, rfl⟩ := hwalk₀.head
  have hlast := hpaths _ hwalk₀
  rw [InitOnPath, pathEvents_cons, getLast?_append] at hlast
  unfold initAfter
  cases hevents : (blockEvents f l b).getLast? with
  | some e =>
    rw [hevents] at hlast
    exact Option.some.inj hlast
  | none =>
    refine decide_eq_true (h.join hwf hcfg hl ⟨_, hwalk₀⟩ fun path hpath => ?_)
    have := hpaths _ hpath
    rwa [InitOnPath, pathEvents_cons, getLast?_append, hevents] at this

end

omit hwf in
lemma joinInit_set {c : BlockId} (hbc : ¬ f.Edge b c)
    (new : Finset LocalId) : joinInit f (out.set b new) c = joinInit f out c := by
  ext l
  simp only [mem_joinInit]
  have hget : ∀ m ∈ f.predecessors c, (out.set b new).getD m ∅ = out.getD m ∅ := by
    intro m hm
    have hne : b ≠ m := by
      rintro rfl
      exact hbc (hcfg.mem_predecessors.1 hm)
    exact getD_set_ne hne
  exact and_congr_right fun _ => and_congr_right fun _ => and_congr_right fun _ =>
    forall₂_congr fun m hm => by rw [hget m hm]

lemma Solved.visit (h : Solved f facts (b :: queue)) :
    Solved f (visitInit f facts b).1 (queue ++ (visitInit f facts b).2) := by
  simp only [visitInit]
  split
  · refine ⟨by simp [h.blockIn], by simp [h.blockOut], ?_, ?_⟩
    · intro l c hc hl hreach hpaths
      by_cases hcb : c = b
      · subst hcb
        rw [getD_set_self (h.blockOut.symm ▸ hc)]
        exact h.transfer hwf hcfg hl hreach hpaths
      · rw [getD_set_ne (Ne.symm hcb)]
        exact h.kept l c hc hl hreach hpaths
    · intro c hc hqueue
      rw [mem_append, not_or] at hqueue
      -- a block that is not queued does not see the new facts
      rw [joinInit_set hcfg (show ¬ f.Edge b c from hqueue.2)]
      by_cases hcb : c = b
      · subst hcb
        rw [getD_set_self (h.blockIn.symm ▸ hc), getD_set_self (h.blockOut.symm ▸ hc)]
        exact ⟨rfl, rfl⟩
      · rw [getD_set_ne (Ne.symm hcb), getD_set_ne (Ne.symm hcb)]
        exact h.settled c hc (not_mem_cons_of_ne_of_not_mem hcb hqueue.1)
  next hsame =>
    refine ⟨by simp [h.blockIn], h.blockOut, h.kept, ?_⟩
    intro c hc hqueue
    rw [append_nil] at hqueue
    by_cases hcb : c = b
    · subst hcb
      rw [getD_set_self (h.blockIn.symm ▸ hc)]
      exact ⟨rfl, (not_ne_iff.1 hsame).symm⟩
    · rw [getD_set_ne (Ne.symm hcb)]
      exact h.settled c hc (not_mem_cons_of_ne_of_not_mem hcb hqueue)

omit hcfg in
lemma solved_start : Solved f (initStart f) (f.blocks.map AmirBasicBlock.id) := by
  refine ⟨by simp [initStart], by simp [initStart], ?_, ?_⟩
  · intro l b hb hl _ _
    simpa [initStart, hb] using hl
  intro b hb hqueue
  refine absurd ?_ hqueue
  rw [mem_map]
  refine ⟨f.block b, ?_, hwf.blockId b hb⟩
  rw [block_eq_getElem hb]
  exact getElem_mem hb

omit hwf in
lemma Solved.sound (h : Solved f facts []) {path : List BlockId}
    (hwalk : Walk f.Edge 0 b path) (hl : l ∈ joinInit f facts.blockOut b) :
    InitOnPath f l path.tail := by
  induction hwalk with
  | start => exact absurd rfl (mem_joinInit.1 hl).1
  | @step m n path hwalk hedge ih =>
    have hm := lt_of_edge hedge
    have hout := (mem_joinInit.1 hl).2.2.2 m (hcfg.mem_predecessors.2 hedge)
    rw [(h.settled m hm not_mem_nil).2, mem_transferInitBlock] at hout
    obtain ⟨rest, rfl⟩ := hwalk.head
    rw [tail_cons, InitOnPath, pathEvents_cons, getLast?_append]
    unfold initAfter at hout
    cases hevents : (blockEvents f l m).getLast? with
    | some e =>
      rw [hevents] at hout
      exact congrArg some hout
    | none =>
      rw [hevents] at hout
      exact ih (of_decide_eq_true hout)

/-- The facts of a block are what all paths to it initialise. -/
lemma Solved.exact (h : Solved f facts []) (hb : b < f.blocks.length) : l ∈ facts.blockIn.getD b ∅ ↔
      l < f.locals.length ∧ ∀ path, PathTo f b path → InitOnPath f l path := by
  rw [(h.settled b hb not_mem_nil).1]
  constructor
  · intro hl
    refine ⟨(mem_joinInit.1 hl).2.2.1, ?_⟩
    rintro path (hwalk | ⟨hdead, -⟩)
    · exact h.sound hcfg hwalk hl
    · obtain ⟨m, hm⟩ := exists_mem_of_ne_nil _ (mem_joinInit.1 hl).2.1
      have hedge := hcfg.mem_predecessors.1 hm
      exact absurd ((hwf.reachable_of_edge hedge).step hedge) hdead
  · rintro ⟨hl, hpaths⟩
    by_cases hreach : Reachable f.Edge 0 b
    · exact h.join hwf hcfg hl hreach fun path hwalk => hpaths path (.inl hwalk)
    · cases hpaths [] (.inr ⟨hreach, rfl⟩)

end Solver

/-! ## The check -/

lemma mem_checkInitStmts {b b' : BlockId} {stmts : List AmirStmt}
    {s : Finset LocalId} : (b', l) ∈ checkInitStmts b stmts s ↔
      b' = b ∧ ∃ k stmt, stmts[k]? = some stmt ∧ l ∈ initUses stmt ∧
        l ∉ (stmts.take k).foldl (fun s stmt => transferInitStmt stmt s) s := by
  induction stmts generalizing s with
  | nil => simp [checkInitStmts]
  | cons stmt stmts ih =>
    rw [checkInitStmts, mem_append, ih]
    simp only [mem_map, mem_filter, decide_eq_true_eq, Prod.mk.injEq]
    constructor
    · rintro (⟨l', ⟨huse, hnot⟩, rfl, rfl⟩ | ⟨rfl, k, stmt', hk, huse, hnot⟩)
      · exact ⟨rfl, 0, stmt, rfl, huse, hnot⟩
      · exact ⟨rfl, k + 1, stmt', hk, huse, hnot⟩
    rintro ⟨rfl, k, stmt', hk, huse, hnot⟩
    cases k with
    | zero =>
      cases hk
      exact .inl ⟨l, ⟨huse, hnot⟩, rfl, rfl⟩
    | succ k => exact .inr ⟨rfl, k, stmt', hk, huse, hnot⟩

lemma localIds_of_initUses {stmt : AmirStmt} (h : l ∈ initUses stmt) : l ∈ stmt.localIds := by
  cases stmt with
  | store lhs rhs =>
    simp only [initUses] at h
    split at h
    · cases h
    · exact h
  | assign _ _ | destroy _ => exact h
  | _ => cases h

lemma exists_pathTo (f : AmirFunc) (b : BlockId) : ∃ path, PathTo f b path := by
  by_cases hreach : Reachable f.Edge 0 b
  · obtain ⟨path, hwalk⟩ := hreach
    obtain ⟨rest, rfl⟩ := hwalk.head
    exact ⟨rest, .inl hwalk⟩
  · exact ⟨[], .inr ⟨hreach, rfl⟩⟩

/-- Where the analysis finishes its facts are final, unless there is nothing to analyse. -/
lemma solved_of_computeInitIn {f : AmirFunc} {blockIn : Option (List (Finset LocalId))}
    (hwf : WellFormed f) (hcfg : f.CfgExact) (hrun : computeInitIn f = .ok blockIn) :
    (f.locals.length = 0 ∧ blockIn = none) ∨
      ∃ facts, Solved f facts [] ∧ blockIn = some facts.blockIn := by
  unfold computeInitIn at hrun
  split at hrun
  next hnone =>
    cases hrun
    exact .inl ⟨hnone.resolve_right (Nat.ne_of_gt hwf.nonempty), rfl⟩
  · split at hrun
    next facts hfacts =>
      cases hrun
      exact .inr ⟨facts,
        worklist_induction (fun facts b queue h => h.visit hwf hcfg) (solved_start hwf) hfacts, rfl⟩
    · cases hrun

/-- The paths to a block, continued by its statements. -/
lemma Solved.before {f : AmirFunc} {facts : InitFacts} {b : BlockId} (h : Solved f facts [])
    (hwf : WellFormed f) (hcfg : f.CfgExact) (hb : b < f.blocks.length)
    (hl : l < f.locals.length) (k : Nat) :
    l ∈ ((f.blockStmts b).take k).foldl (fun s stmt => transferInitStmt stmt s)
      (initParams f b (facts.blockIn.getD b ∅)) ↔ InitBefore f l b k := by
  rw [mem_initBefore]
  refine initAfter_forall (exists_pathTo f b) ?_
  rw [h.exact hwf hcfg hb]
  exact and_iff_right hl

/-- The analysis is exact wherever its limit lets it finish: the set of a reachable block holds the
locals that every path from the entry initialises last, and the check reports the uses of the
others. It walks the unreachable blocks as well, where nothing is initialised on entry. -/
theorem definiteInit_exact {f : AmirFunc} {interner : TypeInterner}
    {blockIn : Option (List (Finset LocalId))} (hvalid : validateAmirFunc f interner = [])
    (hcfg : f.CfgExact) (hlocals : f.LocalsDeclared) (hrun : computeInitIn f = .ok blockIn) :
    (∀ b, Reachable f.Edge 0 b → ∀ l, l ∈ initAtEntry blockIn b ↔
      l < f.locals.length ∧ ∀ path, Walk f.Edge 0 b (b :: path) → InitOnPath f l path) ∧
    ∃ reports, checkDefiniteInit f = .ok reports ∧ ∀ b l, (b, l) ∈ reports ↔
      b < f.blocks.length ∧ ∃ k stmt, (f.blockStmts b)[k]? = some stmt ∧ l ∈ initUses stmt ∧
        ¬ InitBefore f l b k := by
  have hwf := wellFormed_of_validate hvalid
  have hlt : ∀ b, Reachable f.Edge 0 b → b < f.blocks.length := by
    rintro b ⟨path, hwalk⟩
    cases hwalk with
    | start => exact hwf.nonempty
    | step _ hedge => exact hwf.targets _ _ hedge
  have hdeclared : ∀ b k stmt l, (f.blockStmts b)[k]? = some stmt → l ∈ initUses stmt →
      l < f.locals.length := fun b k stmt l hk hl =>
    hlocals.stmts b stmt (mem_of_getElem? hk) l (localIds_of_initUses hl)
  unfold checkDefiniteInit
  rw [hrun]
  rcases solved_of_computeInitIn hwf hcfg hrun with ⟨hempty, rfl⟩ | ⟨facts, hsolved, rfl⟩
  · refine ⟨fun b _ l => ⟨fun hl => absurd hl (Finset.notMem_empty l), fun hl => ?_⟩, [], rfl, ?_⟩
    · exact absurd (hempty ▸ hl.1) (Nat.not_lt_zero _)
    intro b l
    refine ⟨fun h => absurd h not_mem_nil, ?_⟩
    rintro ⟨-, k, stmt, hk, hl, -⟩
    have := hdeclared b k stmt l hk hl
    exact absurd (hempty ▸ this) (Nat.not_lt_zero _)
  refine ⟨fun b hreach l => ?_, _, rfl, fun b l => ?_⟩
  · rw [initAtEntry, hsolved.exact hwf hcfg (hlt b hreach)]
    refine and_congr_right fun _ => forall_congr' fun path => ?_
    -- the empty path is for unreachable blocks only
    exact ⟨fun h hwalk => h (.inl hwalk), fun h hpath =>
      h (hpath.resolve_right fun hdead => hdead.1 hreach)⟩
  · rw [mem_flatMap]
    constructor
    · rintro ⟨block, hblock, hmem⟩
      obtain ⟨i, hi, rfl⟩ := getElem_of_mem hblock
      rw [← block_eq_getElem hi, hwf.blockId i hi] at hmem
      obtain ⟨rfl, k, stmt, hk, huse, hnot⟩ := mem_checkInitStmts.1 hmem
      have hbefore := hsolved.before hwf hcfg hi (hdeclared b k stmt l hk huse) k
      exact ⟨hi, k, stmt, hk, huse, fun h => hnot (hbefore.2 h)⟩
    · rintro ⟨hb, k, stmt, hk, huse, hnot⟩
      refine ⟨f.block b, block_eq_getElem hb ▸ getElem_mem hb, ?_⟩
      rw [hwf.blockId b hb]
      have hbefore := hsolved.before hwf hcfg hb (hdeclared b k stmt l hk huse) k
      exact mem_checkInitStmts.2 ⟨rfl, k, stmt, hk, huse, fun h => hnot (hbefore.1 h)⟩

/-- The entry stores `_l0` and returns; a block nobody jumps to loads `_l1`. -/
def deadUse : AmirFunc :=
  let blocks : List AmirBasicBlock :=
    [⟨0, .empty, ⟨0, 1⟩, .return⟩, ⟨1, .empty, ⟨1, 1⟩, .unreachable⟩]
  { symbol := 0, returnType := 0, receiver := none, params := []
    locals := [⟨0, 0, false, none⟩, ⟨1, 0, false, none⟩]
    temps := [⟨0, 0, true, false⟩], blocks := blocks, blockParams := []
    stmts := [.store ⟨0, []⟩ (.constant .nil), .assign 0 (.load ⟨1, []⟩)]
    cfg := computeCfgEdges blocks }

/-- `if c { l0 = nil; _0 = l0 } else { l0 = nil; l1 = nil }; _2 = l0`: the arms join in bb3. -/
def joinedStores : AmirFunc :=
  let blocks : List AmirBasicBlock :=
    [⟨0, .empty, .empty, .branch (.copy 1) 1 [] 2 []⟩, ⟨1, .empty, ⟨0, 2⟩, .goto 3 []⟩,
     ⟨2, .empty, ⟨2, 2⟩, .goto 3 []⟩, ⟨3, .empty, ⟨4, 1⟩, .return⟩]
  { symbol := 0, returnType := 0, receiver := none, params := [1]
    locals := [⟨0, 0, false, none⟩, ⟨1, 0, false, none⟩]
    temps := [⟨0, 0, true, false⟩, ⟨1, 1, true, false⟩, ⟨2, 0, true, false⟩]
    blocks := blocks, blockParams := []
    stmts := [.store ⟨0, []⟩ (.constant .nil), .assign 0 (.load ⟨0, []⟩),
      .store ⟨0, []⟩ (.constant .nil), .store ⟨1, []⟩ (.constant .nil), .assign 2 (.load ⟨0, []⟩)]
    cfg := computeCfgEdges blocks }

lemma joinedStores_valid :
    validateAmirFunc joinedStores ⟨[.primitive .int, .primitive .bool]⟩ = [] ∧
      joinedStores.CfgExact ∧ computeInitIn joinedStores = .ok (some [∅, ∅, ∅, {0}]) := by
  have hvalid : validateAmirFunc joinedStores ⟨[.primitive .int, .primitive .bool]⟩ = [] := by
    decide
  exact ⟨hvalid, cfgExact_of_compute rfl (wellFormed_of_validate hvalid).targets, by decide⟩

/-- At the join, a local is initialised if both arms initialise it. -/
theorem definiteInit_exact_joinedStores :
    ∃ blockIn, computeInitIn joinedStores = .ok blockIn ∧ ∀ l, l ∈ initAtEntry blockIn 3 ↔ l < 2 ∧
        ∀ path, Walk joinedStores.Edge 0 3 (3 :: path) → InitOnPath joinedStores l path := by
  obtain ⟨hvalid, hcfg, hrun⟩ := joinedStores_valid
  have hreach : Reachable joinedStores.Edge 0 3 := by
    have hfirst : 1 ∈ (joinedStores.block 0).terminator.targets := by decide
    have hsecond : 3 ∈ (joinedStores.block 1).terminator.targets := by decide
    exact (Reachable.start.step hfirst).step hsecond
  exact ⟨_, hrun, (definiteInit_exact hvalid hcfg
    (localsDeclared_of_lt (by decide)) hrun).1 3 hreach⟩

/-- The load is reported although its block is not reachable. -/
theorem dead_use_reported : validateAmirFunc deadUse ⟨[.primitive .int]⟩ = [] ∧
      checkDefiniteInit deadUse = .ok [(1, 1)] ∧ ¬ Reachable deadUse.Edge 0 1 := by
  refine ⟨by decide, by decide, ?_⟩
  rintro ⟨path, hwalk⟩
  cases hwalk with
  | @step m _ _ _ hedge =>
    have hnone : ∀ m < 2, 1 ∉ (deadUse.block m).terminator.targets := by decide
    exact hnone m (lt_of_edge hedge) hedge

/-! ## The facts before statements -/

lemma getElem?_initSnapshots {stmts : List AmirStmt} {k : Nat} (hk : k < stmts.length)
    (init : Finset LocalId) : (initSnapshots stmts init)[k]? =
      some ((stmts.take k).foldl (fun s stmt => transferInitStmt stmt s) init) := by
  induction stmts generalizing init k with
  | nil => cases hk
  | cons stmt stmts ih =>
    cases k with
    | zero => rfl
    | succ k => exact ih (Nat.lt_of_succ_lt_succ hk) _

/-- What drop elaboration is told is exact: before each statement and at the end of each block, the
locals that every path initialises last. A block that is not reachable is looked at on its own. -/
theorem initFacts_exact {f : AmirFunc} {interner : TypeInterner}
    {blockIn : Option (List (Finset LocalId))} (hvalid : validateAmirFunc f interner = [])
    (hcfg : f.CfgExact) (hrun : computeInitIn f = .ok blockIn) :
    ∃ before exits, initializedBeforeStatements f = .ok before ∧
      initializedAtBlockExit f = .ok exits ∧ ∀ b < f.blocks.length, ∀ l < f.locals.length,
        (∀ k < (f.blockStmts b).length, ∃ set, (before.getD b [])[k]? = some set ∧
          (l ∈ set ↔ InitBefore f l b k)) ∧
        (l ∈ exits.getD b ∅ ↔ InitBefore f l b (f.blockStmts b).length) := by
  have hwf := wellFormed_of_validate hvalid
  unfold initializedBeforeStatements initializedAtBlockExit
  rw [hrun]
  rcases solved_of_computeInitIn hwf hcfg hrun with ⟨hempty, rfl⟩ | ⟨facts, hsolved, rfl⟩
  · exact ⟨_, _, rfl, rfl, fun b _ l hl => absurd (hempty ▸ hl) (Nat.not_lt_zero _)⟩
  refine ⟨_, _, rfl, rfl, fun b hb l hl => ?_⟩
  have hexact := hsolved.before hwf hcfg hb hl
  refine ⟨fun k hk => ⟨_, ?_, hexact k⟩, ?_⟩
  · have hblock : (f.blocks[b]).id = b := block_eq_getElem hb ▸ hwf.blockId b hb
    rw [getD_eq_getElem?_getD, getElem?_map, getElem?_eq_getElem hb, Option.map_some,
      Option.getD_some, hblock, getElem?_initSnapshots hk]
  · have hlen : b < facts.blockIn.length := hsolved.blockIn ▸ hb
    rw [← hexact, take_length, getD_eq_getElem?_getD, getElem?_mapIdx,
      getElem?_eq_getElem hlen, Option.map_some, Option.getD_some, transferInitBlock,
      getD_eq_getElem _ _ hlen]

/-- What both arms store is seen at the end of the block in which they join. -/
theorem initFacts_exact_joinedStores : ∃ exits, initializedAtBlockExit joinedStores = .ok exits ∧
    (0 ∈ exits.getD 3 ∅ ↔ InitBefore joinedStores 0 3 1) := by
  obtain ⟨hvalid, hcfg, hrun⟩ := joinedStores_valid
  obtain ⟨_, exits, -, hexits, h⟩ := initFacts_exact hvalid hcfg hrun
  exact ⟨exits, hexits, (h 3 (by decide) 0 (by decide)).2⟩

/-! ## Returns without a result -/

/-- A block parameter or a statement defines the result register. -/
def definesResult (f : AmirFunc) (b : BlockId) : Bool :=
  (f.blockParamsOf b).any (·.id == 0) || (f.blockStmts b).any (·.def? == some 0)

/-- The walk ends at definitions. -/
def unsetSuccessors (f : AmirFunc) (b : BlockId) : List BlockId :=
  if definesResult f b then [] else f.successors b

def uninitializedReturnExits (f : AmirFunc) : Option (List BlockId) := do
  let visited ← floodQueue f.blocks.length (unsetSuccessors f)
  let exits := visited.filter fun b => !definesResult f b && (f.block b).terminator = .return
  some (exits.insertionSort (· ≤ ·))

lemma exists_unset_iff {f : AmirFunc} (hwf : WellFormed f) (hcfg : f.CfgExact) {b : BlockId} :
    (∃ path, Walk f.Edge 0 b path ∧ ∀ c ∈ path, definesResult f c = false) ↔
      definesResult f b = false ∧ Reachable (DfsEdge f.blocks.length (unsetSuccessors f)) 0 b := by
  constructor
  · rintro ⟨path, hwalk, hunset⟩
    refine ⟨hunset b hwalk.mem_end, ?_⟩
    induction hwalk with
    | start => exact .start
    | step hwalk hedge ih =>
      have hbefore := fun c hc => hunset c (mem_cons_of_mem _ hc)
      refine (ih hbefore).step ⟨?_, hwf.targets _ _ hedge⟩
      rw [unsetSuccessors, hbefore _ hwalk.mem_end, hcfg.succs]
      exact hedge
  · rintro ⟨hb, path, hwalk⟩
    induction hwalk with
    | start => exact ⟨_, .start, by simpa using hb⟩
    | @step m n _ _ hedge ih =>
      obtain ⟨hn, -⟩ := hedge
      unfold unsetSuccessors at hn
      split_ifs at hn with hdef
      · cases hn
      · rw [hcfg.succs] at hn
        obtain ⟨path, hwalk, hunset⟩ := ih (by simpa using hdef)
        exact ⟨_, hwalk.step hn, forall_mem_cons.2 ⟨hb, hunset⟩⟩

/-- The walk ends, and the exits are, in order, the returns at the end of a path on which no block
defines the result register. -/
theorem uninitializedReturnExits_exact {f : AmirFunc} {interner : TypeInterner}
    (hvalid : validateAmirFunc f interner = []) (hcfg : f.CfgExact) :
    ∃ exits, uninitializedReturnExits f = some exits ∧ exits.Pairwise (· ≤ ·) ∧
      ∀ b, b ∈ exits ↔ (f.block b).terminator = .return ∧
        ∃ path, Walk f.Edge 0 b path ∧ ∀ c ∈ path, definesResult f c = false := by
  have hwf := wellFormed_of_validate hvalid
  obtain ⟨visited, hvisited, hmem⟩ := @exists_floodQueue _ (unsetSuccessors f) hwf.nonempty
  refine ⟨_, by rw [uninitializedReturnExits, hvisited]; rfl, pairwise_insertionSort _ _,
    fun b => ?_⟩
  rw [exists_unset_iff hwf hcfg, mem_insertionSort, mem_filter, hmem, Bool.and_eq_true,
    Bool.not_eq_true', decide_eq_true_eq]
  tauto

/-- One arm defines the result; the return is an exit because of the other. -/
theorem uninitializedReturnExits_joinedStores :
    ∃ exits, uninitializedReturnExits joinedStores = some exits ∧
      (3 ∈ exits ↔ (joinedStores.block 3).terminator = .return ∧
        ∃ path, Walk joinedStores.Edge 0 3 path ∧
          ∀ c ∈ path, definesResult joinedStores c = false) := by
  obtain ⟨hvalid, hcfg, -⟩ := joinedStores_valid
  obtain ⟨exits, hexits, -, hmem⟩ := uninitializedReturnExits_exact hvalid hcfg
  exact ⟨exits, hexits, hmem 3⟩

end Arandu.Mir
