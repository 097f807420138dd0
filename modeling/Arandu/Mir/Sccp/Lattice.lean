import Arandu.Mir.Sccp.Fold
import Arandu.Mir.AnalysisLimits
import Arandu.Amir.Cfg

/-!
# Sparse conditional constant propagation

`analyse` computes, for every temp, the meet of all constants assigned to it in blocks
that the known constants leave reachable, and marks these blocks; `apply` rewrites the
function accordingly. The analysis is optimistic: it starts from "never assigned" and
"never entered" and sweeps over the blocks in reverse post-order until nothing changes.

Every operation of the analysis `Advances` it: literals are only added to the pool, and a
change lowers a measure that bounds the number of sweeps. `analyse_stable` concludes that
the sweep limit is never what stops the analysis.
-/

namespace Arandu.Mir.Sccp

open Arandu.Amir Arandu.Library List LatticeVal

variable {fin a : Analysis}

/-! ## The lattice -/

/-- Greatest lower bound: unassigned temps contribute nothing, different constants clash. -/
def meet : LatticeVal → LatticeVal → LatticeVal
  | .undefined, x | x, .undefined => x
  | .constant a, .constant b => if a = b then .constant a else .overdefined
  | _, _ => .overdefined

/-- `T?` is a null-or-pointer handle: only `nil` is a constant of it. -/
def nilOnly : LatticeVal → LatticeVal
  | .constant .nil => .constant .nil
  | .undefined => .undefined
  | _ => .overdefined

/-- Convert a constant to the type of its temp; what cannot be converted is unknown. -/
def normalizeLattice (val : LatticeVal) (ty : TypeId) (interner : Option TypeInterner)
    (pool : AmirLiteralPool) : LatticeVal × AmirLiteralPool :=
  match val with
  | .constant value => ofFold pool (normalizeConstant value ty interner pool)
  | other => (other, pool)

/-! ## Analysis -/

structure Analysis where
  lattice : List LatticeVal
  reachable : List Bool
  pool : AmirLiteralPool
  changed : Bool
deriving DecidableEq, Repr

namespace Analysis

/-- Meet a new value into the entry of a temp. -/
def mergeInto (a : Analysis) (t : TempId) (new : LatticeVal) : Analysis :=
  let old := a.lattice.getD t .undefined
  let merged := meet old new
  if t < a.lattice.length ∧ merged ≠ old then
    { a with lattice := a.lattice.set t merged, changed := true }
  else a

def setReachable (a : Analysis) (b : BlockId) : Analysis :=
  if a.reachable[b]? = some false then
    { a with reachable := a.reachable.set b true, changed := true }
  else a

def marked (a : Analysis) (b : BlockId) : Bool := a.reachable.getD b false

end Analysis

section Analyse

variable (f : AmirFunc) (interner : Option TypeInterner) (lattice : List LatticeVal)
  (pool : AmirLiteralPool)

def assignedLattice (tmp : AmirTemp) (rhs : AmirRvalue) : LatticeVal × AmirLiteralPool :=
  let (new, pool) :=
    if tmp.isNullable then
      let (val, pool) := evalRvalue rhs lattice pool
      (nilOnly val, pool)
    else if evaluationSafe rhs tmp.ty interner lattice pool then evalRvalue rhs lattice pool
    else (.overdefined, pool)
  normalizeLattice new tmp.ty interner pool

def visitStmt (a : Analysis) (stmt : AmirStmt) : Analysis :=
  match stmt with
  | .assign lhs rhs =>
    match f.temps[lhs]? with
    | none => a
    | some tmp =>
      let (new, pool) := assignedLattice interner a.lattice a.pool tmp rhs
      { a with pool := pool }.mergeInto lhs new
  | .call (some lhs) _ _ => a.mergeInto lhs .overdefined
  | _ => a

/-- Arguments of the arms of a switch into `target`; `none` when two arms disagree. -/
def switchArgs (target : BlockId) : List (Int × BlockId × List AmirOperand) →
    Option (List AmirOperand) → Option (Option (List AmirOperand))
  | [], incoming => some incoming
  | (_, dest, args) :: rest, incoming =>
    if dest = target then
      if incoming.any (· ≠ args) then none else switchArgs target rest (some args)
    else switchArgs target rest incoming

/-- Jump arguments on `term` that feed the parameters of `target`. Parallel edges with
different arguments feed nothing in particular. -/
def jumpArgsTo (term : AmirTerminator) (target : BlockId) : Option (List AmirOperand) :=
  match term with
  | .goto t args => if t = target then some args else none
  | .suspend _ resume args => if resume = target then some args else none
  | .branch _ ifTrue trueArgs ifFalse falseArgs =>
    if ifTrue = target ∧ ifFalse = target ∧ trueArgs ≠ falseArgs then none
    else if ifTrue = target then some trueArgs
    else if ifFalse = target then some falseArgs
    else none
  | .switchInt _ targets otherwise =>
    match switchArgs target targets none with
    | none => none
    | some incoming =>
      if otherwise.1 = target then
        if incoming.any (· ≠ otherwise.2) then none else some otherwise.2
      else incoming
  | .return | .unreachable => none

def tempIsNullable (t : TempId) : Bool := (f.temps[t]?).any AmirTemp.isNullable

/-- What one incoming edge contributes to a parameter; a missing argument is unknown. -/
def contribution (p : BlockParam) (arg : Option AmirOperand) : LatticeVal × AmirLiteralPool :=
  let argLat :=
    match arg with
    | some op => operandLattice op lattice
    | none => .overdefined
  let contrib := if tempIsNullable f p.id then nilOnly argLat else argLat
  normalizeLattice contrib p.ty interner pool

/-- Meet the arguments of one edge into the accumulators, one per parameter. -/
def meetArgs : List BlockParam → List AmirOperand →
    List LatticeVal → AmirLiteralPool → List LatticeVal × AmirLiteralPool
  | p :: ps, args, acc :: accs, pool =>
    let (contrib, pool) := contribution f interner lattice pool p args.head?
    let (rest, pool) := meetArgs ps args.tail accs pool
    (meet acc contrib :: rest, pool)
  | _, _, accs, pool => (accs, pool)

/-- Accumulators of `meetBlockParams`. -/
structure ParamMeet where
  sawPred : Bool
  acc : List LatticeVal
  pool : AmirLiteralPool

def ParamMeet.start (params : Nat) (pool : AmirLiteralPool) : ParamMeet where
  sawPred := false
  acc := replicate params .undefined
  pool := pool

/-- Only reachable predecessors contribute. -/
def meetPred (a : Analysis) (bid : BlockId) (m : ParamMeet) (pred : BlockId) : ParamMeet :=
  if a.marked pred then
    match jumpArgsTo (f.block pred).terminator bid with
    | none => { m with sawPred := true, acc := m.acc.map fun _ => .overdefined }
    | some args =>
      let (acc, pool) := meetArgs f interner a.lattice (f.blockParamsOf bid) args m.acc m.pool
      { sawPred := true, acc := acc, pool := pool }
  else m

def meetBlockParams (a : Analysis) (bid : BlockId) : Analysis :=
  let params := f.blockParamsOf bid
  if params.isEmpty then a
  else
    let m := (f.predecessors bid).foldl (meetPred f interner a bid) (.start params.length a.pool)
    let a := { a with pool := m.pool }
    if m.sawPred then (params.zip m.acc).foldl (fun a pc => a.mergeInto pc.1.id pc.2) a
    else a

/-- The successors the known values leave possible, in the order they are marked. -/
def feasibleTargets (term : AmirTerminator) (lattice : List LatticeVal)
    (pool : AmirLiteralPool) : List BlockId :=
  match term with
  | .branch condition ifTrue _ ifFalse _ =>
    match operandLattice condition lattice with
    | .constant (.bool true) => [ifTrue]
    | .constant (.bool false) => [ifFalse]
    | _ => [ifTrue, ifFalse]
  | .goto target _ => [target]
  | .suspend _ resume _ => [resume]
  | .switchInt discriminant targets otherwise =>
    let all := targets.map (fun t => t.2.1) ++ [otherwise.1]
    match operandLattice discriminant lattice with
    | .constant c =>
      match constAsI128 c pool with
      | some val =>
        match targets.find? (fun t => t.1 == val) with
        | some (_, tb, _) => [tb]
        | none => [otherwise.1]
      | none => all
    | _ => all
  | .return | .unreachable => []

def propagateBranches (a : Analysis) (term : AmirTerminator) : Analysis :=
  (feasibleTargets term a.lattice a.pool).foldl Analysis.setReachable a

def visitBlock (a : Analysis) (bid : BlockId) : Analysis :=
  if a.marked bid then
    let a := meetBlockParams f interner a bid
    let a := (f.blockStmts bid).foldl (visitStmt f interner) a
    propagateBranches a (f.block bid).terminator
  else a

/-- One iteration of the fixpoint loop. -/
def sweep (a : Analysis) : Analysis :=
  (reversePostOrder f).foldl (visitBlock f interner) { a with changed := false }

def analyseLoop : Nat → Analysis → Analysis
  | 0, a => a
  | fuel + 1, a =>
    let a := sweep f interner a
    if a.changed then analyseLoop fuel a else a

/-- Inputs of the function are unknown, nothing else is assigned yet. -/
def initialAnalysis : Analysis where
  lattice := (f.params ++ f.receiver.toList).foldl (fun lattice t => lattice.set t .overdefined)
    (replicate f.temps.length .undefined)
  reachable := (replicate f.blocks.length false).set 0 true
  pool := pool
  changed := false

def maxIters : Nat := f.blocks.length * f.temps.length * 2 + dataflowFixpointHeadroom

def analyse : Analysis :=
  analyseLoop f interner (maxIters f) (initialAnalysis f pool)

end Analyse

/-! ## Transformation -/

def foldAssign (lattice : List LatticeVal) (stmt : AmirStmt) : AmirStmt :=
  match stmt with
  | .assign lhs rhs =>
    match lattice.getD lhs .undefined with
    | .constant c => .assign lhs (.use (.constant c))
    | _ => .assign lhs rhs
  | stmt => stmt

/-- A branch or switch on a known constant becomes a `Goto`. -/
def trySimplifyTerminator (term : AmirTerminator) (lattice : List LatticeVal)
    (pool : AmirLiteralPool) : Option AmirTerminator :=
  match term with
  | .branch condition ifTrue trueArgs ifFalse falseArgs =>
    match operandLattice condition lattice with
    | .constant (.bool true) => some (.goto ifTrue trueArgs)
    | .constant (.bool false) => some (.goto ifFalse falseArgs)
    | _ => none
  | .switchInt discriminant targets otherwise =>
    match operandLattice discriminant lattice with
    | .constant c =>
      (constAsI128 c pool).map fun val =>
        match targets.find? (fun t => t.1 == val) with
        | some (_, tb, args) => .goto tb args
        | none => .goto otherwise.1 otherwise.2
    | _ => none
  | _ => none

/-- Fold the assignments of every block, simplify the terminators, and end the
unmarked blocks. The loops of the source touch each statement and block independently.
The flag it returns is whether the function changed: every write replaces a statement or
a terminator by a different one. -/
def apply (f : AmirFunc) (a : Analysis) : AmirFunc :=
  { f with
    stmts := f.stmts.mapIdx fun id stmt =>
      if (range f.blocks.length).any (fun b => id ∈ f.blockStmtIds b) then
        foldAssign a.lattice stmt
      else stmt
    blocks := f.blocks.mapIdx fun b block =>
      { block with
        terminator :=
          if b ≠ 0 ∧ a.reachable.getD b true = false then .unreachable
          else (trySimplifyTerminator block.terminator a.lattice a.pool).getD block.terminator } }

def sccp (f : AmirFunc) (pool : AmirLiteralPool) (interner : Option TypeInterner) :
    AmirFunc × AmirLiteralPool :=
  if f.temps.length = 0 ∨ f.blocks.length = 0 then (f, pool)
  else
    let a := analyse f interner pool
    (apply f a, a.pool)

/-! ## Order of the lattice -/

namespace LatticeVal

/-- Room left for changes: `undefined` may become a constant, a constant `overdefined`. -/
def height : LatticeVal → Nat
  | .undefined => 2
  | .constant _ => 1
  | .overdefined => 0

/-- `new` adds nothing to `old`. -/
def Below (new old : LatticeVal) : Prop := new = .undefined ∨ old = .overdefined ∨ new = old

lemma below_of_meet_eq {old new : LatticeVal} (h : meet old new = old) : new.Below old := by
  unfold Below
  cases old with
  | undefined => cases new <;> simp_all [meet]
  | overdefined => exact .inr (.inl rfl)
  | constant c =>
    cases new with
    | constant d =>
      simp only [meet] at h
      split at h
      next heq => exact .inr (.inr (by rw [heq]))
      · cases h
    | _ => simp_all [meet]

lemma Below.refl (x : LatticeVal) : x.Below x := .inr (.inr rfl)

lemma Below.trans {x y z : LatticeVal} (h₁ : x.Below y) (h₂ : y.Below z) : x.Below z := by
  rcases h₁ with h | rfl | rfl
  · exact .inl h
  · rcases h₂ with h | h | h
    · cases h
    · exact .inr (.inl h)
    · exact .inr (.inl h.symm)
  · exact h₂

lemma Below.eq_overdefined {x : LatticeVal} (h : overdefined.Below x) : x = .overdefined := by
  rcases h with h | h | h
  · cases h
  · exact h
  · exact h.symm

lemma below_meet (old new : LatticeVal) : old.Below (meet old new) := by
  cases old with
  | undefined => exact .inl rfl
  | overdefined => cases new <;> exact .refl _
  | constant c =>
    cases new with
    | undefined => exact .refl _
    | overdefined => exact .inr (.inl rfl)
    | constant d =>
      simp only [meet]
      split
      · exact .refl _
      · exact .inr (.inl rfl)

lemma Below.of_meet {x y old : LatticeVal} (h : (meet x y).Below old) :
    x.Below old ∧ y.Below old := by
  -- a meet that gives up is only below `overdefined`
  have htop : overdefined.Below old → x.Below old ∧ y.Below old := fun h =>
    ⟨.inr (.inl h.eq_overdefined), .inr (.inl h.eq_overdefined)⟩
  cases x with
  | undefined => exact ⟨.inl rfl, by cases y <;> exact h⟩
  | overdefined => exact htop (by cases y <;> exact h)
  | constant c =>
    cases y with
    | undefined => exact ⟨h, .inl rfl⟩
    | overdefined => exact htop h
    | constant d =>
      simp only [meet] at h
      split at h
      next heq => exact ⟨h, heq ▸ h⟩
      · exact htop h

lemma height_meet_lt {old new : LatticeVal} (h : meet old new ≠ old) :
    (meet old new).height < old.height := by
  cases old with
  | undefined => cases new <;> simp_all [meet, height]
  | overdefined => cases new <;> simp_all [meet]
  | constant c =>
    cases new with
    | constant d =>
      simp only [meet] at h ⊢
      split at h <;> simp_all [height]
    | _ => simp_all [meet, height]

end LatticeVal

/-! ## Progress -/

namespace Analysis

/-- Number of changes still possible. -/
def measure (a : Analysis) : Nat :=
  (a.lattice.map height).sum + a.reachable.count false

/-- Nothing known is forgotten. -/
structure Grows (a a' : Analysis) : Prop where
  pool : a.pool.Extends a'.pool
  latticeLength : a'.lattice.length = a.lattice.length
  reachableLength : a'.reachable.length = a.reachable.length
  raises : ∀ t, (a.lattice.getD t .undefined).Below (a'.lattice.getD t .undefined)
  marks : ∀ b, a.marked b = true → a'.marked b = true

lemma Grows.refl (a : Analysis) : a.Grows a :=
  ⟨.refl _, rfl, rfl, fun _ => .refl _, fun _ => id⟩

lemma Grows.trans {b c : Analysis} (h₁ : a.Grows b) (h₂ : b.Grows c) : a.Grows c where
  pool := h₁.pool.trans h₂.pool
  latticeLength := h₂.latticeLength.trans h₁.latticeLength
  reachableLength := h₂.reachableLength.trans h₁.reachableLength
  raises := fun t => (h₁.raises t).trans (h₂.raises t)
  marks := fun b h => h₂.marks b (h₁.marks b h)

/-- What any part of a sweep may do: learn more, and lower the measure whenever it raises
the flag. -/
structure Advances (a a' : Analysis) : Prop extends Grows a a' where
  measure : a'.measure ≤ a.measure
  loud : a'.changed = true → a.changed = true ∨ a'.measure < a.measure
  quiet : a'.changed = false → a.changed = false ∧ a'.lattice = a.lattice ∧
    a'.reachable = a.reachable

lemma Advances.refl (a : Analysis) : a.Advances a :=
  { Grows.refl a with
    measure := le_rfl
    loud := .inl
    quiet := fun h => ⟨h, rfl, rfl⟩ }

lemma Advances.trans {b c : Analysis} (h₁ : a.Advances b) (h₂ : b.Advances c) : a.Advances c where
  toGrows := h₁.toGrows.trans h₂.toGrows
  measure := le_trans h₂.measure h₁.measure
  loud := fun hc => by
    rcases h₂.loud hc with hb | hlt
    · rcases h₁.loud hb with ha | hlt
      · exact .inl ha
      · exact .inr (lt_of_le_of_lt h₂.measure hlt)
    · exact .inr (lt_of_lt_of_le hlt h₁.measure)
  quiet := fun hc => by
    obtain ⟨hb, hl₂, hr₂⟩ := h₂.quiet hc
    obtain ⟨ha, hl₁, hr₁⟩ := h₁.quiet hb
    exact ⟨ha, hl₂.trans hl₁, hr₂.trans hr₁⟩

lemma advances_pool (a : Analysis) {pool : AmirLiteralPool} (h : a.pool.Extends pool) :
    a.Advances { a with pool := pool } :=
  { Grows.refl a with
    pool := h
    measure := le_rfl
    loud := .inl
    quiet := fun hc => ⟨hc, rfl, rfl⟩ }

lemma Advances.foldl {α : Type} {step : Analysis → α → Analysis}
    (hstep : ∀ (a : Analysis) x, a.Advances (step a x)) (a : Analysis) (xs : List α) :
    a.Advances (xs.foldl step a) :=
  foldlRecOn xs step (.refl a) fun b hb x _ => hb.trans (hstep b x)

lemma sum_set_lt {xs : List Nat} {i y : Nat} (hi : i < xs.length) (hy : y < xs[i]) :
    (xs.set i y).sum < xs.sum := by
  induction xs generalizing i with
  | nil => cases hi
  | cons x xs ih =>
    cases i with
    | zero => simpa using hy
    | succ i => simpa using ih (Nat.lt_of_succ_lt_succ hi) hy

lemma advances_mergeInto (a : Analysis) (t : TempId) (new : LatticeVal) :
    a.Advances (a.mergeInto t new) := by
  unfold mergeInto
  dsimp only
  split
  next h =>
    obtain ⟨hlt, hne⟩ := h
    have hget : a.lattice.getD t .undefined = a.lattice[t] := by
      simp [getElem?_eq_getElem hlt]
    have hsum : ((a.lattice.set t (meet (a.lattice.getD t .undefined) new)).map
        height).sum < (a.lattice.map height).sum := by
      rw [map_set]
      refine sum_set_lt (by simpa using hlt) ?_
      rw [getElem_map, ← hget]
      exact height_meet_lt hne
    refine ⟨⟨.refl _, by simp, rfl, fun u => ?_, fun _ => id⟩, ?_, fun _ => .inr ?_,
      nofun⟩
    · by_cases hut : u = t
      · subst hut
        simpa [getElem?_set_self hlt] using below_meet _ new
      · simpa [getElem?_set_ne (Ne.symm hut)] using Below.refl _
    · exact Nat.add_le_add_right hsum.le _
    · exact Nat.add_lt_add_right hsum _
  · exact .refl a

lemma advances_setReachable (a : Analysis) (b : BlockId) : a.Advances (a.setReachable b) := by
  unfold setReachable
  split
  next h =>
    obtain ⟨hlt, hget⟩ := List.getElem?_eq_some_iff.1 h
    have hcount : (a.reachable.set b true).count false < a.reachable.count false := by
      rw [count_set hlt]
      have hpos : 0 < a.reachable.count false :=
        count_pos_iff.2 (hget ▸ getElem_mem hlt)
      simp only [hget]
      simpa using hpos
    refine ⟨⟨.refl _, rfl, by simp, fun _ => .refl _, fun c hc => ?_⟩, ?_, fun _ => .inr ?_,
      nofun⟩
    · by_cases hbc : b = c
      · subst hbc
        simp [marked, hlt]
      · simpa [marked, getElem?_set_ne hbc] using hc
    · exact Nat.add_le_add_left hcount.le _
    · exact Nat.add_lt_add_left hcount _
  · exact .refl a

end Analysis

/-! ### Interning -/

lemma extends_ofFold {pool : AmirLiteralPool} {r : Option (AmirConstant × AmirLiteralPool)}
    (h : ∀ c pool', r = some (c, pool') → pool.Extends pool') : pool.Extends (ofFold pool r).2 := by
  cases r with
  | none => exact .refl _
  | some cp => exact h cp.1 cp.2 rfl

lemma extends_evalRvalue (rv : AmirRvalue) (lattice : List LatticeVal) (pool : AmirLiteralPool) :
    pool.Extends (evalRvalue rv lattice pool).2 := by
  unfold evalRvalue
  split
  · exact .refl _
  · split
    · exact extends_ofFold fun c pool' h => extends_foldUnary h
    · exact .refl _
    · exact .refl _
  · split
    · exact extends_ofFold fun c pool' h => extends_foldBinary h
    · exact .refl _
    · exact .refl _
    · exact .refl _
  · exact .refl _

lemma extends_normalizeLattice (val : LatticeVal) (ty : TypeId) (interner : Option TypeInterner)
    (pool : AmirLiteralPool) : pool.Extends (normalizeLattice val ty interner pool).2 := by
  unfold normalizeLattice
  split
  · exact extends_ofFold fun c pool' h => extends_normalizeConstant h
  · exact .refl _

section Progress

variable (f : AmirFunc) (interner : Option TypeInterner) {lattice accs : List LatticeVal}
  {args : List AmirOperand} {ps : List BlockParam}

lemma extends_assignedLattice (lattice : List LatticeVal) (pool : AmirLiteralPool)
    (tmp : AmirTemp) (rhs : AmirRvalue) :
    pool.Extends (assignedLattice interner lattice pool tmp rhs).2 := by
  have heval := extends_evalRvalue rhs lattice pool
  unfold assignedLattice
  dsimp only
  split
  · exact heval.trans (extends_normalizeLattice ..)
  · split
    · exact heval.trans (extends_normalizeLattice ..)
    · exact extends_normalizeLattice ..

lemma extends_meetArgs (lattice : List LatticeVal) (ps : List BlockParam)
    (args : List AmirOperand) (accs : List LatticeVal) (pool : AmirLiteralPool) :
    pool.Extends (meetArgs f interner lattice ps args accs pool).2 := by
  induction ps generalizing args accs pool with
  | nil => exact .refl _
  | cons p ps ih =>
    cases accs with
    | nil => exact .refl _
    | cons acc accs => exact (extends_normalizeLattice ..).trans (ih args.tail accs _)

/-- A predecessor only adds to the accumulators. -/
structure ParamMeet.Grows (m m' : ParamMeet) : Prop where
  pool : m.pool.Extends m'.pool
  length : m'.acc.length = m.acc.length
  below : ∀ i, (m.acc.getD i .undefined).Below (m'.acc.getD i .undefined)
  saw : m.sawPred = true → m'.sawPred = true

lemma meetArgs_length {pool : AmirLiteralPool} :
    (meetArgs f interner lattice ps args accs pool).1.length = accs.length := by
  induction ps generalizing args accs pool with
  | nil => rfl
  | cons q qs ih =>
    cases accs with
    | nil => rfl
    | cons acc accs => exact congrArg Nat.succ ih

lemma meetArgs_below {pool : AmirLiteralPool} (i : Nat) : (accs.getD i .undefined).Below
      ((meetArgs f interner lattice ps args accs pool).1.getD i .undefined) := by
  induction ps generalizing args accs pool i with
  | nil => exact .refl _
  | cons q qs ih =>
    cases accs with
    | nil => exact .refl _
    | cons acc accs =>
      cases i with
      | zero => exact below_meet _ _
      | succ i => exact ih i

section

variable (a : Analysis) (bid : BlockId)

lemma grows_meetPred (m : ParamMeet) (pred : BlockId) :
    m.Grows (meetPred f interner a bid m pred) := by
  unfold meetPred
  split
  · split
    · refine ⟨.refl _, by simp, fun i => ?_, fun _ => rfl⟩
      by_cases hi : i < m.acc.length
      · exact .inr (.inl (by simp [hi]))
      · exact .inl (by simp [hi])
    · exact ⟨extends_meetArgs .., meetArgs_length f interner, meetArgs_below f interner,
        fun _ => rfl⟩
  · exact ⟨.refl _, rfl, fun _ => .refl _, id⟩

lemma grows_foldl_meetPred (m : ParamMeet) (preds : List BlockId) :
    m.Grows (preds.foldl (meetPred f interner a bid) m) := by
  refine foldlRecOn preds _ ⟨.refl _, rfl, fun _ => .refl _, id⟩ fun m' h pred _ => ?_
  have hstep := grows_meetPred f interner a bid m' pred
  exact ⟨h.pool.trans hstep.pool, hstep.length.trans h.length,
    fun i => (h.below i).trans (hstep.below i), fun hsaw => hstep.saw (h.saw hsaw)⟩

/-! ### Sweeps -/

lemma advances_visitStmt (stmt : AmirStmt) : a.Advances (visitStmt f interner a stmt) := by
  unfold visitStmt
  split
  · split
    · exact .refl a
    · exact (a.advances_pool (extends_assignedLattice ..)).trans (Analysis.advances_mergeInto ..)
  · exact a.advances_mergeInto ..
  · exact .refl a

lemma advances_meetBlockParams : a.Advances (meetBlockParams f interner a bid) := by
  unfold meetBlockParams
  dsimp only
  split
  · exact .refl a
  have hpool := a.advances_pool (grows_foldl_meetPred f interner a bid
    (.start (f.blockParamsOf bid).length a.pool) (f.predecessors bid)).pool
  split
  · exact hpool.trans (Analysis.Advances.foldl (fun a pc => a.advances_mergeInto ..) _ _)
  · exact hpool

lemma advances_propagateBranches (term : AmirTerminator) : a.Advances (propagateBranches a term) :=
  Analysis.Advances.foldl Analysis.advances_setReachable _ _

lemma advances_visitStmts (stmts : List AmirStmt) :
    a.Advances (stmts.foldl (visitStmt f interner) a) :=
  Analysis.Advances.foldl (advances_visitStmt f interner) _ _

lemma advances_visitBlock : a.Advances (visitBlock f interner a bid) := by
  unfold visitBlock
  split
  · exact ((advances_meetBlockParams f interner a bid).trans (advances_visitStmts ..)).trans
      (advances_propagateBranches _ _)
  · exact .refl a

lemma advances_sweep : ({ a with changed := false } : Analysis).Advances (sweep f interner a) :=
  Analysis.Advances.foldl (advances_visitBlock f interner) _ _

end

/-- The loop ends with a sweep that changed nothing, provided it may run longer than there
are changes left. -/
lemma analyseLoop_stable {fuel : Nat} (h : a.measure < fuel) :
    a.Grows (analyseLoop f interner fuel a) ∧ (analyseLoop f interner fuel a).changed = false ∧
      ∃ a₁, analyseLoop f interner fuel a = sweep f interner a₁ := by
  induction fuel generalizing a with
  | zero => omega
  | succ fuel ih =>
    have hsweep := advances_sweep f interner a
    have hgrows : a.Grows (sweep f interner a) := ⟨hsweep.pool, hsweep.latticeLength,
      hsweep.reachableLength, hsweep.raises, hsweep.marks⟩
    simp only [analyseLoop]
    split
    next hchanged =>
      -- a loud sweep used up one change
      have hlt : (sweep f interner a).measure < a.measure := by
        rcases hsweep.loud hchanged with hfalse | hlt
        · cases hfalse
        · exact hlt
      obtain ⟨hrest, hquiet, hlast⟩ := @ih (sweep f interner a) (by omega)
      exact ⟨hgrows.trans hrest, hquiet, hlast⟩
    next hchanged => exact ⟨hgrows, by simpa using hchanged, a, rfl⟩

end Progress

/-! ## The fixpoint -/

section Fixpoint

variable (f : AmirFunc) (interner : Option TypeInterner) {lattice : List LatticeVal}

lemma length_foldl_set {α : Type} (v : α) (ts : List Nat) (xs : List α) :
    (ts.foldl (fun xs t => xs.set t v) xs).length = xs.length := by
  induction ts generalizing xs with
  | nil => rfl
  | cons t ts ih => simp [ih]

variable (pool : AmirLiteralPool)

lemma length_initialAnalysis : (initialAnalysis f pool).lattice.length = f.temps.length := by
  simp only [initialAnalysis, length_foldl_set, length_replicate]

lemma sum_height_le (xs : List LatticeVal) : (xs.map height).sum ≤ 2 * xs.length := by
  induction xs with
  | nil => simp
  | cons x xs ih =>
    have hx : x.height ≤ 2 := by cases x <;> simp [height]
    simp only [map_cons, sum_cons, length_cons]
    omega

lemma measure_initialAnalysis :
    (initialAnalysis f pool).measure ≤ 2 * f.temps.length + f.blocks.length := by
  have hsum := sum_height_le (initialAnalysis f pool).lattice
  have hcount := count_le_length (a := false) (l := (initialAnalysis f pool).reachable)
  have hlen : (initialAnalysis f pool).reachable.length = f.blocks.length := by
    simp [initialAnalysis]
  rw [length_initialAnalysis] at hsum
  simp only [Analysis.measure]
  omega

/-- The sweep limit is never what stops the analysis. -/
lemma analyse_stable (htemps : 0 < f.temps.length)
    (hblocks : 0 < f.blocks.length) : (initialAnalysis f pool).Grows (analyse f interner pool) ∧
      (analyse f interner pool).changed = false ∧
      ∃ a₁, analyse f interner pool = sweep f interner a₁ := by
  apply analyseLoop_stable
  have hmeasure := measure_initialAnalysis f pool
  have hprod : f.blocks.length + f.temps.length ≤ f.blocks.length * f.temps.length + 1 := by
    obtain ⟨m, hm⟩ := Nat.exists_eq_add_of_lt hblocks
    obtain ⟨n, hn⟩ := Nat.exists_eq_add_of_lt htemps
    nlinarith [Nat.zero_le (m * n)]
  simp only [maxIters, dataflowFixpointHeadroom]
  omega

structure Stable (f : AmirFunc) (interner : Option TypeInterner) (a : Analysis) : Prop where
  assigns : ∀ b ∈ reversePostOrder f, a.marked b = true → ∀ lhs rhs tmp,
    .assign lhs rhs ∈ f.blockStmts b → f.temps[lhs]? = some tmp →
    ∃ pool, (assignedLattice interner a.lattice pool tmp rhs).2.Extends a.pool ∧
      (assignedLattice interner a.lattice pool tmp rhs).1.Below (a.lattice.getD lhs .undefined)
  calls : ∀ b ∈ reversePostOrder f, a.marked b = true → ∀ lhs callee args,
    .call (some lhs) callee args ∈ f.blockStmts b → lhs < f.temps.length →
    a.lattice.getD lhs .undefined = .overdefined
  params : ∀ b ∈ reversePostOrder f, a.marked b = true → ∀ m ∈ f.predecessors b,
    a.marked m = true → ∀ (i : Nat) (p : BlockParam), (f.blockParamsOf b)[i]? = some p →
    p.id < f.temps.length →
    match jumpArgsTo (f.block m).terminator b with
    | none => a.lattice.getD p.id .undefined = .overdefined
    | some args => ∃ pool, (contribution f interner a.lattice pool p args[i]?).2.Extends a.pool ∧
        (contribution f interner a.lattice pool p args[i]?).1.Below (a.lattice.getD p.id .undefined)
  edges : ∀ b ∈ reversePostOrder f, a.marked b = true → ∃ pool, pool.Extends a.pool ∧
    ∀ t ∈ feasibleTargets (f.block b).terminator a.lattice pool, t < f.blocks.length →
      a.marked t = true

namespace Analysis

structure Sees (a fin : Analysis) : Prop where
  lattice : a.lattice = fin.lattice
  reachable : a.reachable = fin.reachable
  pool : a.pool.Extends fin.pool
  changed : a.changed = false

lemma Advances.sees {b : Analysis} (h : a.Advances b) (hb : b.Sees fin) : a.Sees fin := by
  obtain ⟨hchanged, hlattice, hreachable⟩ := h.quiet hb.changed
  exact ⟨hlattice.symm.trans hb.lattice, hreachable.symm.trans hb.reachable, h.pool.trans hb.pool,
    hchanged⟩

/-- Every element of a quiet fold was visited in a state that saw the result. -/
lemma Advances.foldl_sees {α : Type} {step : Analysis → α → Analysis}
    (hstep : ∀ (a : Analysis) x, a.Advances (step a x)) {xs : List α}
    (h : (xs.foldl step a).Sees fin) {x : α} (hx : x ∈ xs) :
    ∃ a₁, a₁.Sees fin ∧ (step a₁ x).Sees fin := by
  obtain ⟨ys, zs, rfl⟩ := append_of_mem hx
  rw [foldl_append] at h
  have hafter := (Advances.foldl hstep _ zs).sees h
  exact ⟨ys.foldl step a, (hstep _ x).sees hafter, hafter⟩

lemma below_of_mergeInto {t : TempId} {new : LatticeVal} (h : (a.mergeInto t new).Sees fin)
    (ht : t < a.lattice.length) : new.Below (a.lattice.getD t .undefined) := by
  apply below_of_meet_eq
  by_contra hne
  have hchanged := h.changed
  rw [mergeInto, if_pos ⟨ht, hne⟩] at hchanged
  cases hchanged

lemma marked_of_setReachable {b : BlockId} (h : (a.setReachable b).Sees fin)
    (hb : b < a.reachable.length) : a.marked b = true := by
  unfold marked
  cases hget : a.reachable[b]? with
  | none =>
    rw [getElem?_eq_none_iff] at hget
    exact absurd hb (not_lt.2 hget)
  | some x =>
    cases x with
    | true => simp [hget]
    | false =>
      have hchanged := h.changed
      rw [setReachable, if_pos hget] at hchanged
      cases hchanged

end Analysis

/-! ### Parameters -/

lemma meetArgs_getD {ps : List BlockParam} {args : List AmirOperand} {accs : List LatticeVal}
    {pool : AmirLiteralPool} (hlen : accs.length = ps.length) {i : Nat} {p : BlockParam}
    (hp : ps[i]? = some p) : ∃ pool', (contribution f interner lattice pool' p args[i]?).2.Extends
        (meetArgs f interner lattice ps args accs pool).2 ∧
      (meetArgs f interner lattice ps args accs pool).1.getD i .undefined =
        meet (accs.getD i .undefined) (contribution f interner lattice pool' p args[i]?).1 := by
  induction ps generalizing args accs pool i with
  | nil => simp at hp
  | cons q qs ih =>
    cases accs with
    | nil => cases hlen
    | cons acc accs =>
      cases i with
      | zero =>
        cases hp
        refine ⟨pool, ?_, ?_⟩
        · rw [← head?_eq_getElem?]
          exact extends_meetArgs f interner lattice qs args.tail accs _
        · rw [← head?_eq_getElem?]
          rfl
      | succ i =>
        have htail : args[i + 1]? = args.tail[i]? := by simp
        rw [htail]
        exact ih (Nat.succ.inj hlen) hp

variable {f interner} {a : Analysis} {bid : BlockId} {preds : List BlockId} {m : ParamMeet}
  {pred : BlockId} {i : Nat} {p : BlockParam}

/-- The value is above what the edge from the predecessor contributes to a parameter. -/
def Contributed (f : AmirFunc) (interner : Option TypeInterner) (lattice : List LatticeVal)
    (bid pred : BlockId) (i : Nat) (p : BlockParam) (pool : AmirLiteralPool) (val : LatticeVal) :
    Prop :=
  match jumpArgsTo (f.block pred).terminator bid with
  | none => val = .overdefined
  | some args => ∃ pool', (contribution f interner lattice pool' p args[i]?).2.Extends pool ∧
      (contribution f interner lattice pool' p args[i]?).1.Below val

lemma Contributed.mono {pool pool' : AmirLiteralPool} {val val' : LatticeVal}
    (h : Contributed f interner lattice bid pred i p pool val) (hpool : pool.Extends pool')
    (hval : val.Below val') : Contributed f interner lattice bid pred i p pool' val' := by
  unfold Contributed at h ⊢
  generalize jumpArgsTo (f.block pred).terminator bid = incoming at h ⊢
  cases incoming with
  | none =>
    subst h
    exact hval.eq_overdefined
  | some args =>
    obtain ⟨pool₀, hext, hbelow⟩ := h
    exact ⟨pool₀, hext.trans hpool, hbelow.trans hval⟩

variable (interner)

lemma meetPred_contributes (hpred : a.marked pred = true)
    (hlen : m.acc.length = (f.blockParamsOf bid).length) (hp : (f.blockParamsOf bid)[i]? = some p) :
    (meetPred f interner a bid m pred).sawPred = true ∧
      Contributed f interner a.lattice bid pred i p (meetPred f interner a bid m pred).pool
        ((meetPred f interner a bid m pred).acc.getD i .undefined) := by
  unfold meetPred Contributed
  rw [if_pos hpred]
  cases jumpArgsTo (f.block pred).terminator bid with
  | none =>
    obtain ⟨hi, -⟩ := List.getElem?_eq_some_iff.1 hp
    have hacc : i < m.acc.length := hlen ▸ hi
    exact ⟨rfl, by simp [hacc]⟩
  | some args =>
    obtain ⟨pool', hpool, heq⟩ :=
      @meetArgs_getD f interner a.lattice _ args m.acc m.pool hlen i p hp
    refine ⟨rfl, pool', hpool, ?_⟩
    rw [heq]
    exact (Below.of_meet (.refl _)).2

lemma foldl_meetPred_contributes (hmem : pred ∈ preds) (hpred : a.marked pred = true)
    (hlen : m.acc.length = (f.blockParamsOf bid).length) (hp : (f.blockParamsOf bid)[i]? = some p) :
    (preds.foldl (meetPred f interner a bid) m).sawPred = true ∧
      Contributed f interner a.lattice bid pred i p (preds.foldl (meetPred f interner a bid) m).pool
        ((preds.foldl (meetPred f interner a bid) m).acc.getD i .undefined) := by
  induction preds generalizing m with
  | nil => cases hmem
  | cons q qs ih =>
    rcases mem_cons.1 hmem with rfl | hmem
    · -- contributed here, and only raised afterwards
      obtain ⟨hsaw, hcontrib⟩ := meetPred_contributes interner hpred hlen hp
      have hrest := grows_foldl_meetPred f interner a bid (meetPred f interner a bid m pred) qs
      exact ⟨hrest.saw hsaw, hcontrib.mono hrest.pool (hrest.below i)⟩
    · exact ih hmem ((grows_meetPred f interner a bid m q).length.trans hlen)

variable {interner}

/-- A quiet visit to the parameters: every marked predecessor is accounted for. -/
lemma meetBlockParams_sees (h : (meetBlockParams f interner a bid).Sees fin)
    (hlen : a.lattice.length = f.temps.length) (hmem : pred ∈ f.predecessors bid)
    (hpred : a.marked pred = true) (hp : (f.blockParamsOf bid)[i]? = some p)
    (hid : p.id < f.temps.length) :
    Contributed f interner fin.lattice bid pred i p fin.pool
    (fin.lattice.getD p.id .undefined) := by
  have hsees := (advances_meetBlockParams f interner a bid).sees h
  obtain ⟨hi, -⟩ := List.getElem?_eq_some_iff.1 hp
  have hstart : (ParamMeet.start (f.blockParamsOf bid).length a.pool).acc.length =
      (f.blockParamsOf bid).length := by simp [ParamMeet.start]
  have hcontrib := foldl_meetPred_contributes interner hmem hpred hstart hp
  have hacc := (grows_foldl_meetPred f interner a bid _ (f.predecessors bid)).length.trans hstart
  unfold meetBlockParams at h
  rw [if_neg (by intro hempty; simp [isEmpty_iff.1 hempty] at hi)] at h
  -- name the accumulators the fold ends with
  generalize (f.predecessors bid).foldl (meetPred f interner a bid) _ = m at h hcontrib hacc
  rw [if_pos hcontrib.1] at h
  have hpool : m.pool.Extends fin.pool :=
    (Analysis.Advances.foldl (fun a pc => a.advances_mergeInto ..) _ _).pool.trans h.pool
  have hzip : (p, m.acc.getD i .undefined) ∈ (f.blockParamsOf bid).zip m.acc := by
    rw [mem_iff_getElem?]
    refine ⟨i, getElem?_zip_eq_some.2 ⟨hp, ?_⟩⟩
    rw [List.getD, getElem?_eq_getElem (hacc.symm ▸ hi)]
    rfl
  obtain ⟨a₁, ha₁, hmerge⟩ := Analysis.Advances.foldl_sees
    (fun a pc => a.advances_mergeInto ..) h hzip
  have hbelow := Analysis.below_of_mergeInto hmerge (by
    rw [ha₁.lattice, ← hsees.lattice, hlen]
    exact hid)
  rw [ha₁.lattice] at hbelow
  rw [hsees.lattice] at hcontrib
  exact hcontrib.2.mono hpool hbelow

/-! ### Blocks -/

lemma Analysis.Sees.marked (h : a.Sees fin) (b : BlockId) : a.marked b = fin.marked b := by
  rw [Analysis.marked, Analysis.marked, h.reachable]

lemma visitBlock_sees (h : (visitBlock f interner a bid).Sees fin)
    (hmarked : fin.marked bid = true) : a.Sees fin ∧ (meetBlockParams f interner a bid).Sees fin ∧
    ((f.blockStmts bid).foldl (visitStmt f interner) (meetBlockParams f interner a bid)).Sees fin ∧
    (propagateBranches ((f.blockStmts bid).foldl (visitStmt f interner)
      (meetBlockParams f interner a bid)) (f.block bid).terminator).Sees fin := by
  have ha := (advances_visitBlock f interner a bid).sees h
  unfold visitBlock at h
  rw [if_pos ((ha.marked bid).trans hmarked)] at h
  have hstmts := (advances_propagateBranches _ _).sees h
  exact ⟨ha, (advances_visitStmts f interner _ _).sees hstmts, hstmts, h⟩

lemma stable_of_sweep {a₁ : Analysis} (hquiet : (sweep f interner a₁).changed = false)
    (hlattice : (sweep f interner a₁).lattice.length = f.temps.length)
    (hreachable : (sweep f interner a₁).reachable.length = f.blocks.length) :
    Stable f interner (sweep f interner a₁) := by
  have hfin : (sweep f interner a₁).Sees (sweep f interner a₁) := ⟨rfl, rfl, .refl _, hquiet⟩
  have hvisit : ∀ b ∈ reversePostOrder f, ∃ a,
      (visitBlock f interner a b).Sees (sweep f interner a₁) := by
    intro b hb
    obtain ⟨a, -, hvisit⟩ := Analysis.Advances.foldl_sees (advances_visitBlock f interner) hfin hb
    exact ⟨a, hvisit⟩
  constructor
  · -- assignments
    intro b hb hmarked lhs rhs tmp hmem htmp
    obtain ⟨a, hvisit⟩ := hvisit b hb
    obtain ⟨-, -, hstmts, -⟩ := visitBlock_sees hvisit hmarked
    obtain ⟨a₂, hsees, hstmt⟩ :=
      Analysis.Advances.foldl_sees (advances_visitStmt f interner) hstmts hmem
    simp only [visitStmt, htmp] at hstmt
    have hlt : lhs < a₂.lattice.length := by
      rw [hsees.lattice, hlattice]
      exact lt_of_getElem? htmp
    have hbelow := Analysis.below_of_mergeInto hstmt hlt
    have hpool := (Analysis.advances_mergeInto _ _ _).pool.trans hstmt.pool
    rw [hsees.lattice] at hbelow hpool
    exact ⟨a₂.pool, hpool, hbelow⟩
  · -- call results
    intro b hb hmarked lhs callee args hmem hlt
    obtain ⟨a, hvisit⟩ := hvisit b hb
    obtain ⟨-, -, hstmts, -⟩ := visitBlock_sees hvisit hmarked
    obtain ⟨a₂, hsees, hstmt⟩ :=
      Analysis.Advances.foldl_sees (advances_visitStmt f interner) hstmts hmem
    have hbelow := Analysis.below_of_mergeInto hstmt (by rw [hsees.lattice, hlattice]; exact hlt)
    rw [hsees.lattice] at hbelow
    exact hbelow.eq_overdefined
  · -- parameters
    intro b hb hmarked m hm hmm i p hp hid
    obtain ⟨a, hvisit⟩ := hvisit b hb
    obtain ⟨hsees, hparams, -, -⟩ := visitBlock_sees hvisit hmarked
    exact meetBlockParams_sees hparams (by rw [hsees.lattice, hlattice]) hm
      ((hsees.marked m).trans hmm) hp hid
  · -- terminators
    intro b hb hmarked
    obtain ⟨a, hvisit⟩ := hvisit b hb
    obtain ⟨-, -, hstmts, hterm⟩ := visitBlock_sees hvisit hmarked
    refine ⟨_, hstmts.pool, fun t ht hlt => ?_⟩
    rw [← hstmts.lattice] at ht
    obtain ⟨a₂, hsees, hset⟩ :=
      Analysis.Advances.foldl_sees Analysis.advances_setReachable hterm ht
    rw [← hsees.marked]
    exact Analysis.marked_of_setReachable hset (by rw [hsees.reachable, hreachable]; exact hlt)

lemma getD_foldl_set {ts : List TempId} {t : TempId} (ht : t ∈ ts)
    {xs : List LatticeVal} (hlt : t < xs.length) :
    (ts.foldl (fun xs t => xs.set t .overdefined) xs).getD t .undefined = .overdefined := by
  induction ts generalizing xs with
  | nil => cases ht
  | cons u us ih =>
    by_cases hus : t ∈ us
    · exact ih hus (by simpa using hlt)
    obtain rfl : t = u := by simpa [hus] using ht
    -- later inputs leave the entry alone
    have hkeep : ∀ (us : List TempId) (xs : List LatticeVal), t ∉ us →
        (us.foldl (fun xs t => xs.set t .overdefined) xs).getD t .undefined =
          xs.getD t .undefined := by
      intro us
      induction us with
      | nil => exact fun xs _ => rfl
      | cons u us ih =>
        intro xs hu
        rw [foldl_cons, ih _ (fun h => hu (mem_cons_of_mem _ h))]
        have hne : u ≠ t := fun h => hu (h ▸ mem_cons_self)
        simp [getElem?_set_ne hne]
    rw [foldl_cons, hkeep us _ hus]
    simp [hlt]

lemma analyse_spec (f : AmirFunc) (interner : Option TypeInterner) (pool : AmirLiteralPool)
    (htemps : 0 < f.temps.length) (hblocks : 0 < f.blocks.length) :
    Stable f interner (analyse f interner pool) ∧ pool.Extends (analyse f interner pool).pool ∧
      (analyse f interner pool).marked 0 = true ∧
      ∀ t, (t ∈ f.params ∨ f.receiver = some t) → t < f.temps.length →
        (analyse f interner pool).lattice.getD t .undefined = .overdefined := by
  obtain ⟨hgrows, hquiet, a₁, hlast⟩ := analyse_stable f interner pool htemps hblocks
  have hlattice := hgrows.latticeLength.trans (length_initialAnalysis f pool)
  have hreachable : (analyse f interner pool).reachable.length = f.blocks.length := by
    rw [hgrows.reachableLength]
    simp [initialAnalysis]
  refine ⟨?_, hgrows.pool, hgrows.marks 0 ?_, fun t ht hlt => ?_⟩
  · rw [hlast] at hquiet hlattice hreachable ⊢
    exact stable_of_sweep hquiet hlattice hreachable
  · simp [Analysis.marked, initialAnalysis, hblocks]
  · have hmem : t ∈ f.params ++ f.receiver.toList := by
      rcases ht with ht | ht
      · exact mem_append_left _ ht
      · simp [ht]
    have hinit : (initialAnalysis f pool).lattice.getD t .undefined = .overdefined :=
      getD_foldl_set hmem (by simpa using hlt)
    exact (hinit ▸ hgrows.raises t).eq_overdefined

end Fixpoint

end Arandu.Mir.Sccp
