import Arandu.Library.AcyclicSearch
import Arandu.Mir.Loops.Licm

/-!
# Deletion of dead counted loops

`deleteDeadLoops` looks for a loop that computes nothing that is used after it, has no side
effect, and counts a header parameter up to a bound. It sends the edges of the preheader to the
exit of the loop and makes the blocks of the loop unreachable.

`deadLoop_of_deletable` collects what the checks say about a loop that is deleted.
-/

namespace Arandu.Mir

open Arandu.Amir Arandu.Library List

variable {b : BlockId}

/-! ## The checks -/

def maxBoundDepth : Nat := 8

/-- Operators that neither trap nor have effects. -/
def LoopDeletion.isPureBinary : BinaryOp → Bool
  | .add | .sub | .mul | .equal | .notEqual | .lt | .gt | .ltEqual | .gtEqual
  | .bitAnd | .bitOr | .bitXor | .and | .or => true
  | _ => false

/-- A projection of a place that `is_dereferenceable` allows at a position. -/
def isPlainProjection (throughReference : Bool) (pos : Nat) : AmirProjection → Bool
  | .deref => pos == 0 && throughReference
  | .field _ | .tupleField _ => true
  | _ => false

variable (interner : TypeInterner) (f : AmirFunc)

/-- Reached only through a reference local and field projections. -/
def isDereferenceable (place : AmirPlace) : Bool :=
  match f.locals[place.localId]? with
  | none => false
  | some l =>
    let throughReference := match interner.resolve l.ty with
      | .ref _ | .refMut _ => true
      | _ => false
    place.projections.zipIdx.all fun p => isPlainProjection throughReference p.2 p.1

/-- Rvalues without effect, trap or ownership transfer. -/
def isInertRvalue : AmirRvalue → Bool
  | .use _ | .len _ => true
  | .binary op _ _ => LoopDeletion.isPureBinary op
  | .unary op _ =>
    match op with
    | .not | .bitNot | .neg => true
    | _ => false
  | .indexAccess _ _ inBounds => inBounds
  | .load place => isDereferenceable interner f place
  | _ => false

def AmirOperand.isMove : AmirOperand → Bool
  | .move _ => true
  | _ => false

/-- Skipping the statement changes nothing observable. -/
def isInert (removable : List SymbolId) (stmt : AmirStmt) : Bool :=
  if stmt.operands.any AmirOperand.isMove then false
  else
    match stmt with
    | .storageLive _ | .storageDead _ | .nop => true
    | .call _ (.functionRef sym) _ => removable.contains sym
    | .assign _ rhs => isInertRvalue interner f rhs
    | _ => false

variable (lp : LoopInfo)

def definedIn : List TempId :=
  lp.body.flatMap fun b =>
    (f.blockParamsOf b).map BlockParam.id ++ (f.blockStmts b).filterMap AmirStmt.def?

/-- An operand reads one of the temps. -/
def readsAny (temps : List TempId) (op : AmirOperand) : Bool :=
  op.temp?.any temps.contains

def usedOutside (defined : List TempId) : Bool :=
  f.blocks.any fun block => !lp.body.contains block.id &&
    ((f.blockStmts block.id).any (fun stmt => stmt.operands.any (readsAny defined)) ||
      block.terminator.operands.any (readsAny defined))

/-- A successor that the search for inner cycles does not follow. -/
def leavesIteration (b : BlockId) : Bool :=
  b == lp.header || !lp.body.contains b

def nestedAcyclic : Bool :=
  acyclicLoop f.successors (leavesIteration lp) (dfsFuel f.blocks.length f.successors)
    [lp.header] [] [(lp.header, 0)] == some true

def definingStmts (t : TempId) (block : AmirBasicBlock) : List (BlockId × AmirStmt) :=
  ((f.blockStmts block.id).filter (fun stmt => stmt.def? == some t)).map fun stmt =>
    (block.id, stmt)

/-- The rvalue of the single assignment of a temp, if it stands in `blocks`. -/
def definitionIn (blocks : List BlockId) (t : TempId) : Option AmirRvalue :=
  match f.blocks.flatMap (definingStmts f t) with
  | [(b, .assign _ rhs)] => if blocks.contains b then some rhs else none
  | _ => none

variable (pool : AmirLiteralPool)

/-- The literal one. -/
def isOneConstant : AmirConstant → Bool
  | .pool id =>
    match pool.get? id with
    | some (.int text) => parseIntLiteral text == some 1
    | _ => false
  | _ => false

def isOne (f : AmirFunc) : AmirOperand → Bool
  | .constant c => isOneConstant pool c
  | .copy t =>
    match definitionIn f (List.range f.blocks.length) t with
    | some (.use (.constant c)) => isOneConstant pool c
    | _ => false
  | _ => false

/-- The operands `deletable_exit` takes for invariant. -/
def isInvariantOperand (doms : Dominators) : AmirOperand → Bool
  | .copy t => isInvariant f lp doms t
  | .constant _ => true
  | _ => false

/-- `recomputes_invariant`, with the depth that is left. -/
def recomputesInvariant (doms : Dominators) : Nat → AmirOperand → Bool
  | depth, op =>
    if isInvariantOperand f lp doms op then true
    else
      match depth, op with
      | depth + 1, .copy t =>
        match definitionIn f lp.body t with
        | some (.use x) | some (.len x) => recomputesInvariant doms depth x
        | some (.load place) => isDereferenceable interner f place
        | some (.binary op x y) =>
          LoopDeletion.isPureBinary op && recomputesInvariant doms depth x &&
            recomputesInvariant doms depth y
        | _ => false
      | _, _ => false

def headerTest (condition : TempId) : Option (TempId × AmirOperand) :=
  match definitionIn f [lp.header] condition with
  | some (.binary .lt (.copy iv) right) => some (iv, right)
  | some (.binary .gt left (.copy iv)) => some (iv, left)
  | _ => none

/-- The temp is the counter plus one. -/
def isSuccessor (f : AmirFunc) (lp : LoopInfo) (iv next : TempId) : Bool :=
  match definitionIn f lp.body next with
  | some (.binary .add (.copy base) step) => base == iv && isOne pool f step
  | some (.binary .add step (.copy base)) => base == iv && isOne pool f step
  | _ => false

def latchNext (pos : Nat) (latch : BlockId) : Option TempId :=
  match (f.block latch).terminator with
  | .goto target args =>
    if target == lp.header then
      match args[pos]? with
      | some (.copy next) => some next
      | _ => none
    else none
  | _ => none

def counterPosition (iv : TempId) : Option Nat :=
  (f.blockParamsOf lp.header).findIdx? fun p => p.id == iv

def isIntegerType : ArType → Bool
  | .primitive p => p.isInteger
  | _ => false

def countsByOne (f : AmirFunc) (lp : LoopInfo) (doms : Dominators) (condition : TempId) : Bool :=
  match headerTest f lp condition with
  | none => false
  | some (iv, bound) =>
    recomputesInvariant interner f lp doms maxBoundDepth bound &&
      (f.temps[iv]?).any (fun t => isIntegerType (interner.resolve t.ty)) &&
      match counterPosition f lp iv with
      | none => false
      | some pos => ((f.predecessors lp.header).filter lp.body.contains).all fun latch =>
          (latchNext f lp pos latch).any (isSuccessor pool f lp iv)

/-- A terminator whose edges stay in the loop. -/
def staysInside : AmirTerminator → Bool
  | .goto target _ => lp.body.contains target
  | .branch _ t _ e _ => lp.body.contains t && lp.body.contains e
  | _ => false

/-- The exit and its arguments when the loop may be skipped entirely. -/
def deletableExit (removable : List SymbolId)
    (f : AmirFunc) (lp : LoopInfo) (doms : Dominators) : Option (BlockId × List AmirOperand) :=
  match (f.block lp.header).terminator with
  | .branch (.copy condition) ifTrue _ exit falseArgs =>
    if !lp.body.contains ifTrue || lp.body.contains exit then none
    else if !falseArgs.all (isInvariantOperand f lp doms) then none
    else if !lp.body.tail.all (fun b => staysInside lp (f.block b).terminator) then none
    else if !nestedAcyclic f lp then none
    else if !lp.body.all (fun b => (f.blockStmts b).all (isInert interner f removable)) then none
    else if usedOutside f lp (definedIn f lp) then none
    else if countsByOne interner pool f lp doms condition then some (exit, falseArgs)
    else none
  | _ => none

/-! ## The pass -/

/-- `redirect`: an edge to the header goes to the exit. -/
def redirectEdge (header exit : BlockId) (exitArgs : List AmirOperand)
    (edge : BlockId × List AmirOperand) : BlockId × List AmirOperand :=
  if edge.1 = header then (exit, exitArgs) else edge

def retarget (header exit : BlockId) (exitArgs : List AmirOperand) : AmirTerminator → AmirTerminator
  | .goto t args =>
    let e := redirectEdge header exit exitArgs (t, args)
    .goto e.1 e.2
  | .branch c t ta e fa =>
    let yes := redirectEdge header exit exitArgs (t, ta)
    let no := redirectEdge header exit exitArgs (e, fa)
    .branch c yes.1 yes.2 no.1 no.2
  | .switchInt d targets otherwise =>
    .switchInt d (targets.map fun t => (t.1, redirectEdge header exit exitArgs t.2))
      (redirectEdge header exit exitArgs otherwise)
  | .suspend fu r args =>
    let e := redirectEdge header exit exitArgs (r, args)
    .suspend fu e.1 e.2
  | term => term

def skippedTerminator (exit : BlockId) (exitArgs : List AmirOperand) (b : BlockId)
    (term : AmirTerminator) : AmirTerminator :=
  if b ∈ lp.body then .unreachable
  else if b = lp.preheader then retarget lp.header exit exitArgs term
  else term

def skipLoop (exit : BlockId) (exitArgs : List AmirOperand) : AmirFunc :=
  let blocks := f.blocks.mapIdx fun b block =>
    { block with terminator := skippedTerminator lp exit exitArgs b block.terminator }
  { f with blocks := blocks, cfg := computeCfgEdges blocks }

/-- The first loop that may be deleted, from the smallest, with its exit. -/
def deadLoop? (removable : List SymbolId)
    (f : AmirFunc) (doms : Dominators) : Option (LoopInfo × BlockId × List AmirOperand) :=
  (licmLoops f doms).findSome? fun lp =>
    (deletableExit interner pool removable f lp doms).map fun e => (lp, e)

def deleteDeadLoops (removable : List SymbolId) (f : AmirFunc) : Option (Bool × AmirFunc) :=
  if f.blocks.isEmpty then some (false, f)
  else do
    let doms ← Dominators.new f
    match deadLoop? interner pool removable f doms with
    | some (lp, exit, args) => some (true, skipLoop f lp exit args)
    | none => some (false, f)

/-! ## What the checks guarantee -/

/-- The header goes on while the counter is below the bound, and every edge back to it passes
the counter plus one. -/
structure CountedBy (interner : TypeInterner) (pool : AmirLiteralPool) (f : AmirFunc)
    (lp : LoopInfo) (exit : BlockId) (args : List AmirOperand) (condition : TempId)
    (ifTrue : BlockId) (trueArgs : List AmirOperand) (iv : TempId) (bound : AmirOperand)
    (pos : Nat) : Prop where
  header : (f.block lp.header).terminator = .branch (.copy condition) ifTrue trueArgs exit args
  inside : ifTrue ∈ lp.body
  test : headerTest f lp condition = some (iv, bound)
  integer : ∃ tmp, f.temps[iv]? = some tmp ∧ isIntegerType (interner.resolve tmp.ty) = true
  param : counterPosition f lp iv = some pos
  latch : ∀ b ∈ lp.body, f.Edge b lp.header →
    ∃ next, latchNext f lp pos b = some next ∧ isSuccessor pool f lp iv next = true

/-- A loop that passed the checks. -/
structure DeadLoop (interner : TypeInterner) (pool : AmirLiteralPool) (removable : List SymbolId)
    (f : AmirFunc) (lp : LoopInfo) (exit : BlockId) (args : List AmirOperand) : Prop where
  stays : ∀ b ∈ lp.body, b ≠ lp.header → staysInside lp (f.block b).terminator = true
  leaves : exit ∉ lp.body
  passes : ∀ o ∈ operandTemps args, LoopInvariant f lp o
  acyclic : Acc (InnerEdge f.successors (leavesIteration lp)) lp.header
  inert : ∀ b ∈ lp.body, ∀ s ∈ f.blockStmts b, isInert interner f removable s = true
  stmts : ∀ b ∉ lp.body, ∀ s ∈ f.blockStmts b, ∀ t ∈ operandTemps s.operands, t ∉ definedIn f lp
  terminators : ∀ b ∉ lp.body, ∀ t ∈ operandTemps (f.block b).terminator.operands,
    t ∉ definedIn f lp
  counted : ∃ condition ifTrue trueArgs iv bound pos,
    CountedBy interner pool f lp exit args condition ifTrue trueArgs iv bound pos

section Checks

variable {interner : TypeInterner} {pool : AmirLiteralPool} {removable : List SymbolId}
  {f : AmirFunc} {lp : LoopInfo} {t : TempId} {args : List AmirOperand} {doms : Dominators}
  {exit : BlockId}

lemma mem_definedIn_of_stmt (hb : b ∈ lp.body) {s : AmirStmt} (hs : s ∈ f.blockStmts b)
    (hdef : s.def? = some t) : t ∈ definedIn f lp :=
  mem_flatMap.2 ⟨b, hb, mem_append_right _ (mem_filterMap.2 ⟨s, hs, hdef⟩)⟩

lemma mem_definedIn_of_param (hb : b ∈ lp.body)
    (ht : t ∈ (f.blockParamsOf b).map BlockParam.id) : t ∈ definedIn f lp :=
  mem_flatMap.2 ⟨b, hb, mem_append_left _ ht⟩

lemma LoopInvariant.not_mem_definedIn (h : LoopInvariant f lp t) : t ∉ definedIn f lp := by
  intro hmem
  obtain ⟨b, hb, hmem⟩ := mem_flatMap.1 hmem
  rcases mem_append.1 hmem with hmem | hmem
  · exact h.params b hb hmem
  · obtain ⟨s, hs, hdef⟩ := mem_filterMap.1 hmem
    exact h.stmts b hb s hs hdef

lemma readsAny_eq_false {temps : List TempId} {ops : List AmirOperand}
    (h : ops.any (readsAny temps) = false) : ∀ t ∈ operandTemps ops, t ∉ temps := by
  intro t ht hmem
  obtain ⟨op, hop, hot⟩ := mem_operandTemps.1 ht
  have := any_eq_false.1 h op hop
  rw [readsAny, hot] at this
  simp [hmem] at this

lemma not_used_of_usedOutside (hids : ∀ b < f.blocks.length, (f.block b).id = b)
    {defined : List TempId} (h : usedOutside f lp defined = false) (hb : b ∉ lp.body) :
    (∀ s ∈ f.blockStmts b, ∀ t ∈ operandTemps s.operands, t ∉ defined) ∧
      ∀ t ∈ operandTemps (f.block b).terminator.operands, t ∉ defined := by
  have hblock : b < f.blocks.length →
      (∀ s ∈ f.blockStmts b, s.operands.any (readsAny defined) = false) ∧
      (f.block b).terminator.operands.any (readsAny defined) = false := by
    intro hlt
    have hblock := any_eq_false.1 h (f.block b) (block_mem hlt)
    rw [hids b hlt] at hblock
    simp only [contains_eq_mem, hb, decide_false, Bool.not_false, Bool.true_and,
      Bool.not_eq_true, Bool.or_eq_false_iff] at hblock
    exact ⟨fun s hs => by simpa using any_eq_false.1 hblock.1 s hs, hblock.2⟩
  constructor
  · exact fun s hs => readsAny_eq_false ((hblock (AmirFunc.lt_of_mem_blockStmts hs)).1 s hs)
  · exact fun t ht => readsAny_eq_false (hblock (lt_of_mem_operandTemps ht)).2 t ht

lemma countedBy_of_countsByOne (hcfg : f.CfgCovers)
    {condition : TempId} {ifTrue : BlockId} {trueArgs : List AmirOperand}
    (hheader : (f.block lp.header).terminator = .branch (.copy condition) ifTrue trueArgs exit args)
    (hinside : ifTrue ∈ lp.body) (h : countsByOne interner pool f lp doms condition = true) :
    ∃ iv bound pos,
      CountedBy interner pool f lp exit args condition ifTrue trueArgs iv bound pos := by
  unfold countsByOne at h
  split at h
  · cases h
  next iv bound htest =>
    simp only [Bool.and_eq_true] at h
    obtain ⟨⟨-, hinteger⟩, hlatch⟩ := h
    split at hlatch
    · cases hlatch
    next pos hpos =>
      refine ⟨iv, bound, pos, hheader, hinside, htest, ?_, hpos, fun b hb hedge => ?_⟩
      · cases htmp : f.temps[iv]? with
        | none => simp [htmp] at hinteger
        | some tmp => exact ⟨tmp, rfl, by simpa [htmp] using hinteger⟩
      have hmem : b ∈ (f.predecessors lp.header).filter lp.body.contains := by
        refine mem_filter.2 ⟨(hcfg.mirror _ _).1 (hcfg.covers _ _ hedge), ?_⟩
        simpa using hb
      have hnext := all_eq_true.1 hlatch b hmem
      cases hn : latchNext f lp pos b with
      | none => simp [hn] at hnext
      | some next => exact ⟨next, rfl, by simpa [hn] using hnext⟩

lemma deadLoop_of_deletable (hwf : WellFormed f) (hcfg : f.CfgCovers)
    (hdoms : Dominators.new f = some doms) (hloop : NaturalLoop f lp)
    (h : deletableExit interner pool removable f lp doms = some (exit, args)) :
    DeadLoop interner pool removable f lp exit args := by
  unfold deletableExit at h
  split at h
  next condition ifTrue trueArgs exit' args' hheader =>
    simp only [Bool.or_eq_true, Bool.not_eq_true', Option.ite_none_left_eq_some, not_or,
      Bool.not_eq_true, Bool.not_eq_false] at h
    obtain ⟨⟨htrue, hexit⟩, hargs, hstays, hacyclic, hinert, hused, hcount⟩ := h
    split at hcount
    next hcounts =>
      cases hcount
      have hout := fun b (hb : b ∉ lp.body) => not_used_of_usedOutside hwf.blockId hused hb
      refine ⟨fun b hb hne => ?_, by simpa using hexit, fun o ho => ?_, ?_, fun b hb s hs => ?_,
        fun b hb => (hout b hb).1, fun b hb => (hout b hb).2, ?_⟩
      · -- every block but the first of the list
        refine all_eq_true.1 hstays b ?_
        cases hbody : lp.body with
        | nil => rw [hbody] at hb; cases hb
        | cons x rest =>
          rw [hbody] at hb
          have hx : lp.header = x := by simp [LoopInfo.header, hbody]
          exact (mem_cons.1 hb).resolve_left fun heq => hne (heq.trans hx.symm)
      · obtain ⟨op, hop, hot⟩ := mem_operandTemps.1 ho
        have hinv := all_eq_true.1 hargs op hop
        cases op with
        | copy t =>
          cases hot
          exact loopInvariant_of_isInvariant hwf.blockId hcfg hwf.targets hdoms hloop hinv
        | constant c => cases hot
        | _ => cases hinv
      · have hnone : ∀ u ∈ ([] : List BlockId),
            Acc (InnerEdge f.successors (leavesIteration lp)) u :=
          nofun
        have hacc := acyclicLoop_acc hnone (scanned_start lp.header) (beq_iff_eq.1 hacyclic)
        exact hacc _ mem_cons_self
      · exact all_eq_true.1 (all_eq_true.1 hinert b hb) s hs
      · obtain ⟨iv, bound, pos, hcounted⟩ :=
          countedBy_of_countsByOne hcfg hheader (by simpa using htrue) hcounts
        exact ⟨condition, ifTrue, trueArgs, iv, bound, pos, hcounted⟩
    · cases hcount
  · cases h

end Checks

end Arandu.Mir
