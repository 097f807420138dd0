import Arandu.Amir.Validate
import Arandu.Mir.Moves.Origins

/-!
# Soundness of the move checker

If nothing is reported, no place is read, moved or destroyed along any path from the entry that
overlaps a place moved out before (`checkMoves_sound`), with one exception: a `Destroy` of a
whole local destroys what is left of a local whose fields have been moved. What a `Move` operand
moves out is the place its temp comes from (`ComesFrom`).

Not covered are functions with an edge to the entry block, where the propagation never starts, and
moves of temps with several definitions, which the checker ignores (`checkMoves_misses`).

The solver starts at blocks without predecessors and queues the targets of every block whose
facts change, so at the end every block that has been started is `MoveSettled`: its entry state is
the join of the states on the edges into it. A path therefore meets covering states only.
-/

namespace Arandu.Mir

open Arandu.Amir Arandu.Library List AmirFunc MoveState

variable {b : BlockId}

/-- The tables the checker reads agree with each other: blocks carry their own index, edges lead
to blocks and are listed, and locals are declared, one for every parameter. -/
structure TablesAgree (f : AmirFunc) : Prop where
  nonempty : 0 < f.blocks.length
  blockId : ∀ b < f.blocks.length, (f.block b).id = b
  targets : ∀ m n, f.Edge m n → n < f.blocks.length
  cfg : f.CfgCovers
  locals : f.LocalsDeclared
  params : f.params.length ≤ f.locals.length

lemma tablesAgree_of_validate {f : AmirFunc} {interner : TypeInterner}
    (hvalid : validateAmirFunc f interner = []) (hcfg : f.cfg = computeCfgEdges f.blocks)
    (hlocals : ∀ b < f.blocks.length, (∀ p ∈ f.blockParamsOf b, p.localId < f.locals.length) ∧
      ∀ stmt ∈ f.blockStmts b, ∀ l ∈ stmt.localIds, l < f.locals.length)
    (hparams : f.params.length ≤ f.locals.length) : TablesAgree f := by
  have hwf := wellFormed_of_validate hvalid
  exact ⟨hwf.nonempty, hwf.blockId, hwf.targets, cfgCovers_of_compute hcfg hwf.targets,
    localsDeclared_of_lt hlocals, hparams⟩

/-! ## The solver -/

section Solver

variable {f : AmirFunc} {origins : Origins}

/-- A state has arrived at the block, or it is one of those the propagation starts from. -/
def MoveStarted (f : AmirFunc) (facts : MoveFacts) (b : BlockId) : Prop :=
  f.predecessors b = [] ∨ incomingStates f facts.edgeOut b ≠ []

/-- The facts of a block are what the states that arrive give. -/
structure MoveSettled (f : AmirFunc) (origins : Origins) (facts : MoveFacts)
    (b : BlockId) : Prop where
  input : facts.blockIn.getD b .new =
    joinPredecessors (incomingStates f facts.edgeOut b) f.locals.length
  output : facts.edgeOut.getD b [] = blockEdgeStates f origins b (facts.blockIn.getD b .new)

/-- Every block that has been started is settled or queued. -/
structure Propagated (f : AmirFunc) (origins : Origins) (facts : MoveFacts)
    (queue : List BlockId) : Prop where
  lengths : facts.blockIn.length = f.blocks.length ∧ facts.edgeOut.length = f.blocks.length
  edges : ∀ b, ∀ e ∈ facts.edgeOut.getD b [], f.Edge b e.1
  settled : ∀ b < f.blocks.length, MoveStarted f facts b → b ∈ queue ∨ MoveSettled f origins facts b

/-- A change of the edges out of `b` is seen by the targets of `b` only. -/
lemma incomingStates_set {edgeOut : List (List (BlockId × MoveState))}
    {newEdges : List (BlockId × MoveState)} {t : BlockId}
    (hold : ∀ e ∈ edgeOut.getD b [], f.Edge b e.1) (hnew : ∀ e ∈ newEdges, f.Edge b e.1)
    (ht : ¬ f.Edge b t) :
    incomingStates f (edgeOut.set b newEdges) t = incomingStates f edgeOut t := by
  have hnone : ∀ edges : List (BlockId × MoveState), (∀ e ∈ edges, f.Edge b e.1) →
      edges.filter (fun e => e.1 == t) = [] := by
    intro edges hedges
    rw [filter_eq_nil_iff]
    intro e he heq
    exact ht ((beq_iff_eq.1 heq) ▸ hedges e he)
  unfold incomingStates
  congr 1
  funext pred
  rcases getD_set_cases edgeOut b newEdges [] pred with ⟨heq, -⟩ | ⟨rfl, -, heq⟩
  · rw [heq]
  · rw [heq, hnone _ hold, hnone _ hnew]

lemma propagated_visit {facts : MoveFacts} {queue : List BlockId}
    (htargets : ∀ m n, f.Edge m n → n < f.blocks.length)
    (h : Propagated f origins facts (b :: queue)) :
    Propagated f origins (visitMoves f origins facts b).1
      (queue ++ (visitMoves f origins facts b).2) := by
  -- a visit that changes nothing leaves the other blocks as they were
  have hsame (hb : MoveStarted f facts b → MoveSettled f origins facts b) :
      Propagated f origins facts (queue ++ []) := by
    refine ⟨h.lengths, h.edges, fun t ht hstarted => ?_⟩
    by_cases htb : t = b
    · exact .inr (htb ▸ hb (htb ▸ hstarted))
    · refine (h.settled t ht hstarted).imp_left fun hmem => ?_
      rw [append_nil]
      exact (mem_cons.1 hmem).resolve_left htb
  unfold visitMoves
  dsimp only
  split
  next hwait =>
    refine hsame fun hstarted => ?_
    simp only [List.isEmpty_eq_false_iff, List.isEmpty_iff] at hwait
    exact absurd hwait.2 (hstarted.resolve_left hwait.1)
  · split
    next hchange =>
      have hnew : ∀ e ∈ blockEdgeStates f origins b
          (joinPredecessors (incomingStates f facts.edgeOut b) f.locals.length),
          f.Edge b e.1 := fun e he => blockEdgeStates_edge he
      refine ⟨by simpa using h.lengths, fun t e he => ?_, fun t ht hstarted => ?_⟩
      · rcases getD_set_cases facts.edgeOut b (blockEdgeStates f origins b (.joinPredecessors
          (incomingStates f facts.edgeOut b) f.locals.length)) [] t with ⟨heq, -⟩ | ⟨rfl, -, heq⟩
        · exact h.edges t e (heq ▸ he)
        · exact hnew e (heq ▸ he)
      · by_cases hedge : f.Edge b t
        · exact .inl (mem_append_right _
            (mem_filter.2 ⟨hedge, by simpa using htargets b t hedge⟩))
        · have hincoming := incomingStates_set (h.edges b) hnew hedge
          rw [MoveStarted, hincoming] at hstarted
          by_cases htb : b = t
          · subst htb
            refine .inr ⟨?_, ?_⟩
            · rw [hincoming, getD_set_self (h.lengths.1 ▸ ht)]
            · rw [getD_set_self (h.lengths.2 ▸ ht), getD_set_self (h.lengths.1 ▸ ht)]
          · rcases h.settled t ht hstarted with hmem | hsettled
            · exact .inl (mem_append_left _ ((mem_cons.1 hmem).resolve_left (Ne.symm htb)))
            · refine .inr ⟨?_, ?_⟩
              · rw [hincoming, getD_set_ne htb, hsettled.input]
              · rw [getD_set_ne htb, getD_set_ne htb]
                exact hsettled.output
    next hkeep =>
      obtain ⟨hin, hout⟩ := not_or.1 hkeep
      rw [not_not] at hin hout
      exact hsame fun _ => ⟨hin.symm, by rw [← hin]; exact hout.symm⟩

lemma propagated_start (hblockId : ∀ b < f.blocks.length, (f.block b).id = b) :
    Propagated f origins (moveStart f) (moveSeeds f) := by
  have hempty (b : BlockId) : (moveStart f).edgeOut.getD b [] = [] :=
    getElem?_getD_replicate_default_eq ..
  refine ⟨by simp [moveStart], fun b e he => ?_, fun b hb hstarted => .inl ?_⟩
  · rw [hempty] at he
    cases he
  have hpreds : f.predecessors b = [] := by
    refine hstarted.resolve_right fun hincoming => hincoming ?_
    simp only [incomingStates, hempty, filter_nil, map_nil, flatMap_eq_nil_iff, implies_true]
  refine mem_filter.2 ⟨mem_map.2 ⟨f.block b, ?_, hblockId b hb⟩, by simp [hpreds]⟩
  rw [block_eq_getElem hb]
  exact getElem_mem hb

end Solver

/-! ## Paths meet covering states -/

section Paths

variable {f : AmirFunc} {origins : Origins} {facts : MoveFacts} {out : List AmirPlace}

lemma MovePath.declared (hlocals : f.LocalsDeclared) (horigins : OriginsDeclared f origins)
    (h : MovePath f origins b out) : ∀ m ∈ out, m.localId < f.locals.length := by
  induction h with
  | entry => exact nofun
  | edge _ hedge ih =>
    refine run_declared (forall_mem_append.2 ⟨fun a => ?_, fun a => ?_⟩) ih
    · exact blockAccesses_declared horigins hlocals
    · exact operandAccesses_declared horigins

/-- Along every path the blocks are started, and their facts cover what is moved out. -/
lemma covers_path (htables : TablesAgree f) (hentry : f.predecessors 0 = [])
    (horigins : OriginsDeclared f origins) (hfacts : Propagated f origins facts [])
    (h : MovePath f origins b out) :
    b < f.blocks.length ∧ MoveStarted f facts b ∧ CoversMoves (facts.blockIn.getD b .new) out := by
  induction h with
  | entry => exact ⟨htables.nonempty, .inl hentry, nofun⟩
  | @edge b t out args h hedge ih =>
    obtain ⟨hb, hstarted, hcovers⟩ := ih
    have hsettled := (hfacts.settled b hb hstarted).resolve_left (by simp)
    have hEdge : f.Edge b t := AmirTerminator.mem_targets_of_mem_edges hedge
    have harrives : (blockAccesses f origins b ++ args.flatMap (operandAccess f origins)).foldl
        Access.apply (facts.blockIn.getD b .new) ∈ incomingStates f facts.edgeOut t := by
      refine mem_flatMap.2 ⟨b, (htables.cfg.mirror b t).1 (htables.cfg.covers b t hEdge), ?_⟩
      refine mem_map.2 ⟨(t, _), mem_filter.2 ⟨?_, beq_self_eq_true t⟩, rfl⟩
      rw [hsettled.output, blockEdgeStates_eq]
      exact mem_map.2 ⟨(t, args), hedge, rfl⟩
    have ht := htables.targets b t hEdge
    have htstarted : MoveStarted f facts t := .inr (ne_nil_of_mem harrives)
    refine ⟨ht, htstarted, ?_⟩
    rw [((hfacts.settled t ht htstarted).resolve_left (by simp)).input]
    exact CoversMoves.joinPredecessors
      ((MovePath.edge h hedge).declared htables.locals horigins) harrives (hcovers.accesses _)

end Paths

/-! ## A silent check -/

lemma mem_dedupDiagnostics {unique ds : List (BlockId × MoveDiag)} {d : BlockId × MoveDiag}
    (h : d ∈ unique) : d ∈ dedupDiagnostics unique ds := by
  induction ds generalizing unique with
  | nil => exact h
  | cons e ds ih =>
    rw [dedupDiagnostics]
    split
    · exact ih h
    · exact ih (mem_append_left _ h)

lemma dedupDiagnostics_eq_nil {ds : List (BlockId × MoveDiag)}
    (h : dedupDiagnostics [] ds = []) : ds = [] := by
  cases ds with
  | nil => rfl
  | cons d ds =>
    have hmem : d ∈ dedupDiagnostics [] (d :: ds) := by
      rw [dedupDiagnostics]
      exact mem_dedupDiagnostics mem_cons_self
    rw [h] at hmem
    cases hmem

section Silent

variable {f : AmirFunc} {origins : Origins}

lemma allAccepted_of_silent {input : MoveState} (h : (applyBlock f origins b input).2 = []) :
    AllAccepted input (blockAccesses f origins b) ∧ ∀ edge ∈ (f.block b).terminator.edges,
        AllAccepted input (blockAccesses f origins b ++
        edge.2.flatMap (operandAccess f origins)) := by
  -- the match on the inspected operand is in the way of `split`
  have hsilent : ∀ c : Checked, Performs (input, []) (blockAccesses f origins b) c →
      (let edges := (f.block b).terminator.edges.map fun edge =>
        consumeOperands f origins edge.2 (c.1, [])
      if (f.block b).terminator.edges.isEmpty then c
      else (joinPredecessors (edges.map Prod.fst) f.locals.length,
        c.2 ++ edges.flatMap Prod.snd)).2 = [] →
      AllAccepted input (blockAccesses f origins b) ∧ ∀ edge ∈ (f.block b).terminator.edges,
          AllAccepted input
            (blockAccesses f origins b ++ edge.2.flatMap (operandAccess f origins)) := by
    intro c hperforms h
    split at h
    next hnone =>
      refine ⟨(hperforms.silent h).2, fun edge hedge => ?_⟩
      rw [List.isEmpty_iff.1 hnone] at hedge
      cases hedge
    · obtain ⟨hc, hedges⟩ := append_eq_nil_iff.1 h
      have hblock := (hperforms.silent hc).2
      refine ⟨hblock, fun edge hedge => allAccepted_append.2 ⟨hblock, ?_⟩⟩
      rw [← hperforms.state]
      exact ((performs_operands edge.2 (c.1, [])).silent
        (flatMap_eq_nil_iff.1 hedges _ (mem_map_of_mem hedge))).2
  exact hsilent _ (performs_block b input) h

lemma allClean_of_undeclared {n : Nat} (hn : n = 0) {as : List Access}
    (has : ∀ a ∈ as, a.place.localId < n) (out : List AmirPlace) : AllClean out as := by
  cases as with
  | nil => trivial
  | cons a as =>
    have hlt := has a mem_cons_self
    rw [hn] at hlt
    exact absurd hlt (Nat.not_lt_zero _)

end Silent

/-- By the checker's own table of origins, all accesses of an accepted function are clean. -/
lemma allClean_of_checkMoves {f : AmirFunc} (htables : TablesAgree f)
    (hentry : f.predecessors 0 = []) (hcheck : checkMoves f = .ok [])
    {b : BlockId} {out : List AmirPlace} (hpath : MovePath f (tempOrigins f) b out) :
    AllClean out (blockAccesses f (tempOrigins f) b) ∧ ∀ edge ∈ (f.block b).terminator.edges,
        AllClean out (blockAccesses f (tempOrigins f) b ++
          edge.2.flatMap (operandAccess f (tempOrigins f))) := by
  have horigins := tempOrigins_declared htables.locals htables.params
  by_cases hnone : f.locals.length = 0
  · have hblock : ∀ a ∈ blockAccesses f (tempOrigins f) b, a.place.localId < f.locals.length :=
      fun a ha => blockAccesses_declared horigins htables.locals ha
    refine ⟨allClean_of_undeclared hnone hblock out, fun edge _ =>
      allClean_of_undeclared hnone (fun a ha => ?_) out⟩
    exact (mem_append.1 ha).elim (hblock a) (operandAccesses_declared horigins)
  · have hsolve : ¬ (f.locals.length = 0 ∨ f.blocks.length = 0) := by
      have := htables.nonempty
      omega
    rw [checkMoves, computeMoveIn, if_neg hsolve] at hcheck
    cases hfacts : worklist (visitMoves f (tempOrigins f)) (moveLimit f) (moveSeeds f)
        (moveStart f) with
    | none =>
      rw [hfacts] at hcheck
      cases hcheck
    | some facts =>
      rw [hfacts] at hcheck
      have hsilent : moveDiagnostics f facts.blockIn = [] :=
        dedupDiagnostics_eq_nil (Except.ok.inj hcheck)
      have hpropagated : Propagated f (tempOrigins f) facts [] :=
        worklist_induction (fun _ _ _ h => propagated_visit htables.targets h)
          (propagated_start htables.blockId) hfacts
      obtain ⟨hb, -, hcovers⟩ := covers_path htables hentry horigins hpropagated hpath
      have hmem : f.block b ∈ f.blocks := by
        rw [block_eq_getElem hb]
        exact getElem_mem hb
      have hblock := map_eq_nil_iff.1 (flatMap_eq_nil_iff.1 hsilent (f.block b) hmem)
      rw [htables.blockId b hb] at hblock
      obtain ⟨haccepted, hedges⟩ := allAccepted_of_silent hblock
      exact ⟨hcovers.allClean haccepted, fun edge hedge => hcovers.allClean (hedges edge hedge)⟩

/-- A function on which nothing is reported never touches, along any path from the entry, a
place that overlaps one moved out before and not restored since; only a `Destroy` of a whole
local may find some of its fields moved. Which place a move is from is told by any table of true
origins. -/
theorem checkMoves_sound {f : AmirFunc} (htables : TablesAgree f)
    (hentry : f.predecessors 0 = []) (hcheck : checkMoves f = .ok [])
    {origins : Origins} (horigins : OriginsTrue f origins)
    {b : BlockId} {out : List AmirPlace} (hpath : MovePath f origins b out) :
    AllClean out (blockAccesses f origins b) ∧ ∀ edge ∈ (f.block b).terminator.edges,
        AllClean out (blockAccesses f origins b ++ edge.2.flatMap (operandAccess f origins)) := by
  have hless : ∀ t place, originFor origins t = some place →
      originFor (tempOrigins f) t = some place :=
    fun t place h => (horigins t place h).origin htables.blockId
  obtain ⟨out', hpath', hsub⟩ := hpath.larger hless
  obtain ⟨hblock, hedges⟩ := allClean_of_checkMoves htables hentry hcheck hpath'
  refine ⟨(blockAccesses_thinner hless b).allClean hsub hblock, fun edge hedge => ?_⟩
  exact (edgeAccesses_thinner hless b edge.2).allClean hsub (hedges edge hedge)

/-! ## Small functions -/

def pairTypes : TypeInterner := ⟨[.primitive .int, .named 1 .empty]⟩

def owner (blocks : List AmirBasicBlock) (stmts : List AmirStmt) : AmirFunc :=
  { symbol := 0, returnType := 0, receiver := none, params := []
    locals := [⟨0, 0, false, none⟩, ⟨1, 1, true, none⟩]
    temps := [⟨0, 0, true, false⟩, ⟨1, 1, false, false⟩, ⟨2, 1, false, false⟩], blocks := blocks
    blockParams := [], stmts := stmts, cfg := computeCfgEdges blocks }

/-- bb0: `_1 = Load s1; Free(_1)`, bb1: `s1 = call; _2 = Load s1`: what is freed is stored again
before it is read. -/
def refill : AmirFunc :=
  owner [⟨0, .empty, ⟨0, 2⟩, .goto 1 []⟩, ⟨1, .empty, ⟨2, 2⟩, .return⟩]
    [.assign 1 (.load ⟨1, []⟩), .free (.move 1),
      .store ⟨1, []⟩ (.functionRef 7), .assign 2 (.load ⟨1, []⟩)]

/-- The table of a function in which `_1` and `_2` are loaded at most once each. -/
lemma originsTrue_owner {blocks : List AmirBasicBlock} {stmts : List AmirStmt} {p₁ : AmirPlace}
    {p₂ : Option AmirPlace} (h₁ : DefinedOnce (owner blocks stmts) 1 (.load p₁))
    (h₂ : ∀ p ∈ p₂, DefinedOnce (owner blocks stmts) 2 (.load p)) :
    OriginsTrue (owner blocks stmts) [none, some p₁, p₂] := by
  intro t place h
  rcases t with _ | _ | _ | t
  · cases h
  · cases h
    exact .load h₁
  · exact .load (h₂ place h)
  · cases h

lemma definedOnce_owner {blocks : List AmirBasicBlock} {stmts : List AmirStmt} {t : TempId}
    {rhs : AmirRvalue} {b : BlockId} (ht : t < 3)
    (hassigned : .assign t rhs ∈ (owner blocks stmts).blockStmts b)
    (honce : definitionCount (owner blocks stmts) t = 1) :
    DefinedOnce (owner blocks stmts) t rhs := by
  refine ⟨ht, ⟨b, hassigned⟩, honce, nofun, fun b' p hp => ?_⟩
  simp [AmirFunc.blockParamsOf, AmirFunc.paramsOf, owner] at hp

/-- In bb1 the local is moved out at first, and all accesses are clean. -/
theorem checkMoves_sound_refill :
    AllClean [⟨1, []⟩] (blockAccesses refill [none, some ⟨1, []⟩, some ⟨1, []⟩] 1) := by
  have hvalid : validateAmirFunc refill pairTypes = [] := by decide
  have htables := tablesAgree_of_validate hvalid rfl (by decide) (by decide)
  have horigins : OriginsTrue refill [none, some ⟨1, []⟩, some ⟨1, []⟩] := by
    refine originsTrue_owner (definedOnce_owner (b := 0) (by decide) (by decide) rfl) ?_
    rintro p ⟨⟩
    exact definedOnce_owner (b := 1) (by decide) (by decide) rfl
  have hedge : (1, []) ∈ (refill.block 0).terminator.edges := by decide
  have hpath : MovePath refill [none, some ⟨1, []⟩, some ⟨1, []⟩] 1 [⟨1, []⟩] := .edge .entry hedge
  exact (checkMoves_sound htables rfl (by decide +kernel) horigins hpath).1

/-- `_1 = Load s1.0; Free(_1); Destroy(s1)`: a field is consumed, then the whole local. -/
def partialDrop : AmirFunc :=
  owner [⟨0, .empty, ⟨0, 3⟩, .return⟩]
    [.assign 1 (.load ⟨1, [.field 0]⟩), .free (.move 1), .destroy ⟨1, []⟩]

/-- bb0: `_1 = Load s1; Free(_1); goto bb0`: the second round loads what the first one freed. -/
def freeLoop : AmirFunc :=
  owner [⟨0, .empty, ⟨0, 2⟩, .goto 0 []⟩] [.assign 1 (.load ⟨1, []⟩), .free (.move 1)]

/-- `_1 = Load s1; _1 = Load s1; Free(_1); _2 = Load s1`: what is freed is loaded. -/
def loadedTwice : AmirFunc :=
  owner [⟨0, .empty, ⟨0, 4⟩, .return⟩]
    [.assign 1 (.load ⟨1, []⟩), .assign 1 (.load ⟨1, []⟩), .free (.move 1),
      .assign 2 (.load ⟨1, []⟩)]

/-- Nothing is reported where a `Destroy` overlaps the field that is moved out, where a loop through
the entry frees a local again and again, and where the freed temp has two definitions. -/
theorem checkMoves_misses :
    (validateAmirFunc partialDrop pairTypes = [] ∧ TablesAgree partialDrop ∧
      partialDrop.predecessors 0 = [] ∧ checkMoves partialDrop = .ok [] ∧
      OriginsTrue partialDrop [none, some ⟨1, [.field 0]⟩, none] ∧ ∃ before place m,
        blockAccesses partialDrop [none, some ⟨1, [.field 0]⟩, none] 0 =
          before ++ [.destroy place] ∧
        m ∈ before.foldl Access.run [] ∧ placesOverlap m (trackedMovePlace place) = true) ∧
    (validateAmirFunc freeLoop pairTypes = [] ∧ checkMoves freeLoop = .ok [] ∧
      OriginsTrue freeLoop [none, some ⟨1, []⟩, none] ∧
      MovePath freeLoop [none, some ⟨1, []⟩, none] 0 [⟨1, []⟩] ∧
      ¬ AllClean [⟨1, []⟩] (blockAccesses freeLoop [none, some ⟨1, []⟩, none] 0)) ∧
    (validateAmirFunc loadedTwice pairTypes = [] ∧ checkMoves loadedTwice = .ok [] ∧
      ¬ AllClean [] (blockAccesses loadedTwice [none, some ⟨1, []⟩, some ⟨1, []⟩] 0)) := by
  have hvalid : validateAmirFunc partialDrop pairTypes = [] := by decide
  refine ⟨⟨hvalid, tablesAgree_of_validate hvalid rfl (by decide) (by decide), rfl,
    by decide +kernel, ?_, [.read ⟨1, [.field 0]⟩, .move ⟨1, [.field 0]⟩], ⟨1, []⟩,
    ⟨1, [.field 0]⟩, by decide⟩, ⟨by decide, by decide +kernel, ?_, ?_, ?_⟩,
    by decide, by decide +kernel, ?_⟩
  · exact originsTrue_owner (definedOnce_owner (b := 0) (by decide) (by decide) rfl) nofun
  · exact originsTrue_owner (definedOnce_owner (b := 0) (by decide) (by decide) rfl) nofun
  · have hback : (0, ([] : List AmirOperand)) ∈ (freeLoop.block 0).terminator.edges := by decide
    exact .edge .entry hback
  · intro hclean
    exact absurd (hclean.1 ⟨1, []⟩ (by decide)) (by decide)
  · intro hclean
    exact absurd (hclean.2.2.2.1 ⟨1, []⟩ (by decide)) (by decide)

end Arandu.Mir
