import Arandu.Mir.Moves.Check

/-!
# Accesses to places, and states that cover what is moved out

A path through the control-flow graph moves places out and stores restore them. The statements
of a block are flattened into accesses to places, each of them clean if it touches nothing that
is moved out.

`CoversMoves` relates the state of the checker to the places moved out on a path. Each access keeps
it, and so do joins, and an access that is accepted by the checker in a covering state is clean.
-/

namespace Arandu.Mir

open Arandu.Amir Arandu.Library List MoveState

variable {as : List Access} {s : MoveState}

/-! ## Accesses -/

/-- What a statement does to places, in order. -/
inductive Access where
  | read (place : AmirPlace)
  /-- reach a part of a place that is about to be stored to -/
  | through (place : AmirPlace)
  | move (place : AmirPlace)
  | destroy (place : AmirPlace)
  | store (place : AmirPlace)
deriving DecidableEq, Repr

section Accesses

variable (f : AmirFunc) (origins : Origins)

def inspection (op : AmirOperand) : List Access :=
  ((op.temp?.bind (originFor origins)).map Access.read).toList

/-- A `Move` of a non-`Copy` temp moves the place it comes from; another operand only looks. -/
def operandAccess : AmirOperand → List Access
  | .move t => ((movedPlace f origins (.move t)).map Access.move).toList
  | op => inspection origins op

def stmtAccesses : AmirStmt → List Access
  | .assign _ rhs =>
    rhs.places.map .read ++
      rhs.operands.flatMap
        (if isInspection rhs then inspection origins else operandAccess f origins)
  | .store lhs rhs =>
    (if lhs.projections.isEmpty then [] else [.through lhs]) ++ operandAccess f origins rhs ++
      [.store lhs]
  | .call _ callee args => (callee :: args).flatMap (operandAccess f origins)
  | .free op => operandAccess f origins op
  | .destroy place => [.destroy place]
  | .storageLive _ | .storageDead _ | .nop => []

def blockAccesses (b : BlockId) : List Access :=
  (f.blockStmts b).flatMap (stmtAccesses f origins) ++
    (inspectedOperand (f.block b).terminator).toList.flatMap (inspection origins)

end Accesses

/-! ## Paths -/

namespace Access

/-- The places that are moved out after an access. A store restores what it overwrites. -/
def run (out : List AmirPlace) : Access → List AmirPlace
  | .read _ | .through _ => out
  | .move place | .destroy place => trackedMovePlace place :: out
  | .store place => out.filter fun m => !placeIsPrefix (trackedMovePlace place) m

def Clean (out : List AmirPlace) : Access → Prop
  | .read place | .move place => ∀ m ∈ out, placesOverlap m (trackedMovePlace place) = false
  | .destroy place => ∀ m ∈ out, placesOverlap m (trackedMovePlace place) = true →
      place.projections = [] ∧ m.projections ≠ []
  | .through place => ∀ m ∈ out,
      m.projections.length < (trackedMovePlace place).projections.length →
        placeIsPrefix m (trackedMovePlace place) = false
  | .store _ => True

end Access

def AllClean : List AmirPlace → List Access → Prop
  | _, [] => True
  | out, a :: as => a.Clean out ∧ AllClean (a.run out) as

/-- A path from the entry to the start of block `b`, with the places it has moved out. -/
inductive MovePath (f : AmirFunc) (origins : Origins) : BlockId → List AmirPlace → Prop
  | entry : MovePath f origins 0 []
  | edge {b t : BlockId} {out : List AmirPlace} {args : List AmirOperand}
      (h : MovePath f origins b out) (hedge : (t, args) ∈ (f.block b).terminator.edges) :
      MovePath f origins t
        ((blockAccesses f origins b ++ args.flatMap (operandAccess f origins)).foldl Access.run out)

/-! ## The checker as a sequence of accesses -/

namespace Access

def apply (s : MoveState) : Access → MoveState
  | .read _ | .through _ => s
  | .move place | .destroy place => s.movePlace place
  | .store place => s.restorePlace place

/-- Nothing is reported for the access. -/
def Accepted (s : MoveState) : Access → Prop
  | .read place | .move place => s.placeState place = .available
  | .through place => s.placeBaseState place = .available
  | .destroy place => recursiveRootCleanup s place = true ∨ s.placeState place = .available
  | .store _ => True

end Access

def AllAccepted : MoveState → List Access → Prop
  | _, [] => True
  | s, a :: as => a.Accepted s ∧ AllAccepted (a.apply s) as

lemma allAccepted_append {bs : List Access} :
    AllAccepted s (as ++ bs) ↔ AllAccepted s as ∧ AllAccepted (as.foldl Access.apply s) bs := by
  induction as generalizing s with
  | nil => simp [AllAccepted]
  | cons a as ih => simp [AllAccepted, ih, and_assoc]

/-- The checker goes from `c` to `c'` by the accesses `as`, and if nothing has been reported
then, they were all accepted. -/
structure Performs (c : Checked) (as : List Access) (c' : Checked) : Prop where
  state : c'.1 = as.foldl Access.apply c.1
  silent : c'.2 = [] → c.2 = [] ∧ AllAccepted c.1 as

namespace Performs

variable {c c₁ c₂ : Checked} {as bs : List Access}

lemma refl (c : Checked) : Performs c [] c := ⟨rfl, fun h => ⟨h, trivial⟩⟩

lemma trans (h₁ : Performs c as c₁) (h₂ : Performs c₁ bs c₂) : Performs c (as ++ bs) c₂ := by
  refine ⟨by rw [foldl_append, ← h₁.state, h₂.state], fun h => ?_⟩
  obtain ⟨hc₁, hbs⟩ := h₂.silent h
  obtain ⟨hc, has⟩ := h₁.silent hc₁
  exact ⟨hc, allAccepted_append.2 ⟨has, h₁.state ▸ hbs⟩⟩

lemma foldl {α : Type} {g : Checked → α → Checked} {acc : α → List Access}
    (h : ∀ a c, Performs c (acc a) (g c a)) (l : List α) (c : Checked) :
    Performs c (l.flatMap acc) (l.foldl g c) := by
  induction l generalizing c with
  | nil => exact refl c
  | cons a l ih => exact (h a c).trans (ih (g c a))

end Performs

variable {state : LocalMoveState} {b : BlockId}

section Performing

variable {f : AmirFunc} {origins : Origins} {place : AmirPlace}

lemma checkPlaceState_eq_nil : checkPlaceState place state = [] ↔ state = .available := by
  cases state <;> simp [checkPlaceState]

lemma checkConsumePlace_eq_nil {doubleFree : Bool} :
    checkConsumePlace s place doubleFree = [] ↔ s.placeState place = .available := by
  unfold checkConsumePlace
  cases s.placeState place <;> simp

lemma performs_inspection (op : AmirOperand) (c : Checked) :
    Performs c (inspection origins op) (checkOperandRead origins op c) := by
  unfold inspection checkOperandRead
  cases op.temp?.bind (originFor origins) with
  | none => exact .refl c
  | some place =>
    refine ⟨rfl, fun h => ?_⟩
    obtain ⟨hc, hread⟩ := append_eq_nil_iff.1 h
    exact ⟨hc, checkPlaceState_eq_nil.1 hread, trivial⟩

lemma performs_operand (doubleFree : Bool) (op : AmirOperand) (c : Checked) :
    Performs c (operandAccess f origins op) (consumeOperand f origins doubleFree op c) := by
  cases op with
  | move t =>
    simp only [operandAccess, consumeOperand]
    cases movedPlace f origins (.move t) with
    | none => exact .refl c
    | some place =>
      refine ⟨rfl, fun h => ?_⟩
      obtain ⟨hc, hconsume⟩ := append_eq_nil_iff.1 h
      exact ⟨hc, checkConsumePlace_eq_nil.1 hconsume, trivial⟩
  | copy t | constant k | functionRef s | globalRef s => exact performs_inspection _ c

lemma performs_operands (ops : List AmirOperand) (c : Checked) :
    Performs c (ops.flatMap (operandAccess f origins)) (consumeOperands f origins ops c) :=
  .foldl (fun op c => performs_operand false op c) ops c

lemma performs_reads (rhs : AmirRvalue) (c : Checked) :
    Performs c (rhs.places.map .read) (checkRvalueReads rhs c) := by
  have hreads : ∀ (places : List AmirPlace) (s : MoveState),
      (places.map Access.read).foldl Access.apply s = s ∧
        ((∀ p ∈ places, s.placeState p = .available) → AllAccepted s (places.map .read)) := by
    intro places s
    induction places with
    | nil => exact ⟨rfl, fun _ => trivial⟩
    | cons p places ih =>
      exact ⟨ih.1, fun h => ⟨h p mem_cons_self, ih.2 fun q hq => h q (mem_cons_of_mem _ hq)⟩⟩
  refine ⟨(hreads _ _).1.symm, fun h => ?_⟩
  obtain ⟨hc, hnone⟩ := append_eq_nil_iff.1 h
  refine ⟨hc, (hreads _ _).2 fun p hp => ?_⟩
  exact checkPlaceState_eq_nil.1 (flatMap_eq_nil_iff.1 hnone p hp)

lemma performs_stmt (stmt : AmirStmt) (c : Checked) :
    Performs c (stmtAccesses f origins stmt) (applyMoveStmt f origins stmt c) := by
  cases stmt with
  | assign lhs rhs =>
    refine (performs_reads rhs c).trans ?_
    simp only [applyMoveStmt, consumeRvalue]
    split
    · exact .foldl (fun op c => performs_inspection op c) _ _
    · exact performs_operands _ _
  | store lhs rhs =>
    refine (Performs.trans ?_ (performs_operand false rhs _)).trans
      ⟨rfl, fun h => ⟨h, trivial, trivial⟩⟩
    split
    · exact .refl c
    · refine ⟨rfl, fun h => ?_⟩
      obtain ⟨hc, hbase⟩ := append_eq_nil_iff.1 h
      exact ⟨hc, checkPlaceState_eq_nil.1 hbase, trivial⟩
  | call lhs callee args => exact performs_operands _ c
  | free op => exact performs_operand true op c
  | destroy place =>
    refine ⟨rfl, fun h => ?_⟩
    simp only [applyMoveStmt] at h
    split at h
    next hcleanup => exact ⟨h, .inl hcleanup, trivial⟩
    · obtain ⟨hc, hconsume⟩ := append_eq_nil_iff.1 h
      exact ⟨hc, .inr (checkConsumePlace_eq_nil.1 hconsume), trivial⟩
  | storageLive l | storageDead l | nop => exact .refl c

lemma performs_block (b : BlockId) (s : MoveState) :
    Performs (s, []) (blockAccesses f origins b)
      (match inspectedOperand (f.block b).terminator with
      | some op => checkOperandRead origins op
          (applyMoveStmts f origins (f.blockStmts b) (s, []))
      | none => applyMoveStmts f origins (f.blockStmts b) (s, [])) := by
  refine Performs.trans (.foldl (fun stmt c => performs_stmt stmt c) _ _) ?_
  cases inspectedOperand (f.block b).terminator with
  | none => exact .refl _
  | some op =>
    simp only [Option.toList_some, flatMap_cons, flatMap_nil, append_nil]
    exact performs_inspection op _

lemma blockEdgeStates_eq (b : BlockId) (input : MoveState) :
    blockEdgeStates f origins b input = (f.block b).terminator.edges.map fun edge =>
      (edge.1, (blockAccesses f origins b ++ edge.2.flatMap (operandAccess f origins)).foldl
        Access.apply input) := by
  -- what the terminator inspects does not change the state
  have hblock : (applyMoveStmts f origins (f.blockStmts b) (input, [])).1 =
      (blockAccesses f origins b).foldl Access.apply input := by
    rw [← (performs_block b input).state]
    cases inspectedOperand (f.block b).terminator with
    | none => rfl
    | some op =>
      unfold checkOperandRead
      dsimp only
      split <;> rfl
  refine map_congr_left fun edge _ => ?_
  rw [Prod.mk.injEq, foldl_append, ← hblock]
  exact ⟨rfl, (performs_operands edge.2 (_, [])).state⟩

lemma blockEdgeStates_edge {input : MoveState} {e : BlockId × MoveState}
    (he : e ∈ blockEdgeStates f origins b input) : f.Edge b e.1 := by
  obtain ⟨edge, hedge, rfl⟩ := mem_map.1 he
  exact AmirTerminator.mem_targets_of_mem_edges hedge

end Performing

/-! ## States that cover the places moved out -/

/-- Every place moved out is recorded: its local is not available any more, or it is one of the
recorded fields. -/
def CoversMoves (s : MoveState) (out : List AmirPlace) : Prop :=
  ∀ m ∈ out, trackedMovePlace m = m ∧
    (s.rootState m.localId ≠ .available ∨ m.projections ≠ [] ∧ m ∈ s.fields)

variable {a : Access} {m : AmirPlace} {n : Nat}

section Covering

variable {s t : MoveState} {out : List AmirPlace} {place : AmirPlace} {l : LocalId} {l : Nat}

lemma trackedMovePlace_idem (place : AmirPlace) :
    trackedMovePlace (trackedMovePlace place) = trackedMovePlace place := by
  unfold trackedMovePlace
  by_cases hdyn : place.projections.any isDynamicIndex = true
  · simp [hdyn]
  simp only [hdyn]
  have hkeep : (place.projections.filter (· ≠ .deref)).any isDynamicIndex = false := by
    rw [any_eq_false]
    intro p hp
    rw [Bool.not_eq_true, any_eq_false] at hdyn
    exact hdyn p (mem_filter.1 hp).1
  simp only [hkeep, Bool.false_eq_true, if_false, filter_filter, Bool.and_self]

lemma rootState_set (s : MoveState) (l : LocalId) (state : LocalMoveState) (l' : LocalId) :
    (s.set l state).rootState l' = if l' = l then state else s.rootState l' := by
  by_cases hl : l' = l
  · subst hl
    cases state <;> simp [MoveState.rootState, MoveState.set]
  · cases state <;> simp [MoveState.rootState, MoveState.set, hl]

lemma mem_fields_set : m ∈ (s.set l state).fields ↔ m ∈ s.fields ∧ m.localId ≠ l := by
  simp [MoveState.fields, MoveState.set, or_and_right]

lemma rootState_pushFieldState (state : LocalMoveState) (l : LocalId) :
    (s.pushFieldState place state).rootState l = s.rootState l := by
  unfold pushFieldState
  cases state <;> dsimp only <;> (try split) <;> rfl

lemma mem_fields_pushFieldState : m ∈ (s.pushFieldState place state).fields ↔
      m ∈ s.fields ∨ (m = place ∧ state ≠ .available) := by
  have hknown (hmem : place ∈ s.fields) : m ∈ s.fields ↔ m ∈ s.fields ∨ m = place := by
    refine ⟨.inl, ?_⟩
    rintro (h | rfl)
    · exact h
    · exact hmem
  cases state with
  | available => simp [pushFieldState]
  | moved | maybeMoved =>
    simp only [pushFieldState, ne_eq, reduceCtorEq, not_false_eq_true, and_true]
    split
    next hmem => exact hknown (by simp [fields, contains_iff_mem.1 hmem])
    next =>
      simp only [fields, mem_append, mem_singleton]
      tauto

lemma CoversMoves.movePlace (h : CoversMoves s out) (place : AmirPlace) :
    CoversMoves (s.movePlace place) (trackedMovePlace place :: out) := by
  unfold MoveState.movePlace
  dsimp only
  split
  next hempty =>
    -- the whole local is moved, so everything below it counts as moved
    refine forall_mem_cons.2 ⟨?_, fun m hm => ?_⟩
    · exact ⟨trackedMovePlace_idem place, .inl (by rw [rootState_set, if_pos rfl]; decide)⟩
    obtain ⟨htracked, hroot | ⟨hproj, hfield⟩⟩ := h m hm
    · refine ⟨htracked, .inl ?_⟩
      rw [rootState_set]
      split
      · decide
      · exact hroot
    · refine ⟨htracked, ?_⟩
      by_cases hl : m.localId = (trackedMovePlace place).localId
      · exact .inl (by rw [rootState_set, if_pos hl]; decide)
      · exact .inr ⟨hproj, mem_fields_set.2 ⟨hfield, hl⟩⟩
  next hempty =>
    refine forall_mem_cons.2 ⟨?_, fun m hm => ?_⟩
    · refine ⟨trackedMovePlace_idem place, .inr ⟨by simpa using hempty, ?_⟩⟩
      exact mem_fields_pushFieldState.2 (.inr ⟨rfl, by decide⟩)
    · obtain ⟨htracked, hroot | ⟨hproj, hfield⟩⟩ := h m hm
      · exact ⟨htracked, .inl (by rwa [rootState_pushFieldState])⟩
      · exact ⟨htracked, .inr ⟨hproj, mem_fields_pushFieldState.2 (.inl hfield)⟩⟩

attribute [local simp] placeIsPrefix

lemma CoversMoves.restorePlace (h : CoversMoves s out) (place : AmirPlace) :
    CoversMoves (s.restorePlace place)
      (out.filter fun m => !placeIsPrefix (trackedMovePlace place) m) := by
  unfold MoveState.restorePlace
  dsimp only
  intro m hm
  obtain ⟨hmem, hprefix⟩ := mem_filter.1 hm
  obtain ⟨htracked, hcover⟩ := h m hmem
  refine ⟨htracked, ?_⟩
  split
  next hempty =>
    -- what is left is of other locals
    have hl : m.localId ≠ (trackedMovePlace place).localId := by
      intro hl
      simp [hl, List.isEmpty_iff.1 hempty] at hprefix
    rcases hcover with hroot | ⟨hproj, hfield⟩
    · exact .inl (by rwa [rootState_set, if_neg hl])
    · exact .inr ⟨hproj, mem_fields_set.2 ⟨hfield, hl⟩⟩
  · rcases hcover with hroot | ⟨hproj, hfield⟩
    · exact .inl hroot
    · refine .inr ⟨hproj, ?_⟩
      simp only [MoveState.fields, mem_append, mem_filter] at hfield ⊢
      exact hfield.imp (⟨·, hprefix⟩) (⟨·, hprefix⟩)

/-! ### Joins -/

lemma joinMoveState_eq_available {x y : LocalMoveState} :
    joinMoveState x y = .available ↔ x = .available ∧ y = .available := by
  cases x <;> cases y <;> decide

lemma rootState_joinRoots (hl : l < n) :
    (s.joinRoots t n).rootState l = joinMoveState (s.rootState l) (t.rootState l) := by
  have hfold : ∀ (ls : List Nat) (joined : MoveState),
      (ls.foldl (fun joined l => joined.set l (joinMoveState (s.rootState l) (t.rootState l)))
        joined).rootState l =
      if l ∈ ls then joinMoveState (s.rootState l) (t.rootState l) else joined.rootState l := by
    intro ls
    induction ls with
    | nil => simp
    | cons l' ls ih =>
      intro joined
      rw [foldl_cons, ih, rootState_set]
      by_cases hls : l ∈ ls
      · simp [hls]
      · by_cases hll : l = l'
        · simp [hll]
        · simp [hll]
  rw [joinRoots, hfold, if_pos (mem_range.2 hl)]

lemma foldl_join_fields (places : List AmirPlace) (joined : MoveState)
    (state : AmirPlace → LocalMoveState) :
    let result := places.foldl (fun joined place => if joined.hasExactField place then joined
      else joined.pushFieldState place (state place)) joined
    (∀ l, result.rootState l = joined.rootState l) ∧
    (∀ m ∈ joined.fields, m ∈ result.fields) ∧
    ∀ m ∈ places, state m ≠ .available → m ∈ result.fields := by
  induction places generalizing joined with
  | nil => exact ⟨fun _ => rfl, fun _ h => h, nofun⟩
  | cons p places ih =>
    simp only [foldl_cons]
    split
    next hexact =>
      obtain ⟨hroot, hkeep, hadd⟩ := ih joined
      refine ⟨hroot, hkeep, forall_mem_cons.2 ⟨fun _ => hkeep p ?_, hadd⟩⟩
      simpa [hasExactField, fields] using hexact
    · obtain ⟨hroot, hkeep, hadd⟩ := ih (joined.pushFieldState p (state p))
      refine ⟨fun l => (hroot l).trans (rootState_pushFieldState _ _), fun m hm => ?_,
        forall_mem_cons.2 ⟨fun hstate => ?_, hadd⟩⟩
      · exact hkeep m (mem_fields_pushFieldState.2 (.inl hm))
      · exact hkeep p (mem_fields_pushFieldState.2 (.inr ⟨rfl, hstate⟩))

lemma rootState_join (hl : l < n) :
    (s.join t n).rootState l = joinMoveState (s.rootState l) (t.rootState l) := by
  rw [join, (foldl_join_fields _ _ _).1, rootState_joinRoots hl]

lemma stateBy_eq_available {related : AmirPlace → Bool} : s.stateBy related l = .available ↔
      s.rootState l = .available ∧ ∀ m ∈ s.fields, related m = false := by
  have hnone (ms : List AmirPlace) : (∀ m ∈ ms, related m = false) ↔ ms.any related = false := by
    simp
  rw [stateBy, fields, forall_mem_append, hnone, hnone]
  by_cases hroot : s.rootState l = .available
  · cases s.movedFields.any related <;> cases s.maybeMovedFields.any related <;> simp [hroot]
  · simp [hroot]

lemma fieldFactState_ne_available (htracked : trackedMovePlace m = m)
    (hm : m ∈ s.fields) : s.fieldFactState m ≠ .available := by
  have hself : placeIsPrefix m (trackedMovePlace m) = true := by
    simp [htracked]
  intro havail
  rw [(stateBy_eq_available.1 havail).2 m hm] at hself
  cases hself

lemma mem_fields_join (htracked : trackedMovePlace m = m)
    (hm : m ∈ s.fields ∨ m ∈ t.fields) : m ∈ (s.join t n).fields := by
  refine (foldl_join_fields _ _ _).2.2 m (mem_append.2 hm) ?_
  rw [ne_eq, joinMoveState_eq_available, not_and_or]
  exact hm.imp (fieldFactState_ne_available htracked) (fieldFactState_ne_available htracked)

/-- A join loses nothing that is moved on one side. -/
lemma CoversMoves.join (hlocals : ∀ m ∈ out, m.localId < n)
    (h : CoversMoves s out ∨ CoversMoves t out) : CoversMoves (s.join t n) out := by
  intro m hm
  have hroot := not_congr
    (@joinMoveState_eq_available (s.rootState m.localId) (t.rootState m.localId))
  rw [← rootState_join (hlocals m hm)] at hroot
  rcases h with h | h <;> obtain ⟨htracked, hmoved | ⟨hproj, hfield⟩⟩ := h m hm
  · exact ⟨htracked, .inl (hroot.2 fun hboth => hmoved hboth.1)⟩
  · exact ⟨htracked, .inr ⟨hproj, mem_fields_join htracked (.inl hfield)⟩⟩
  · exact ⟨htracked, .inl (hroot.2 fun hboth => hmoved hboth.2)⟩
  · exact ⟨htracked, .inr ⟨hproj, mem_fields_join htracked (.inr hfield)⟩⟩

lemma CoversMoves.joinPredecessors {preds : List MoveState}
    (hlocals : ∀ m ∈ out, m.localId < n) (hmem : s ∈ preds) (h : CoversMoves s out) :
    CoversMoves (joinPredecessors preds n) out := by
  have hfold : ∀ (rest : List MoveState) (acc : MoveState), (CoversMoves acc out ∨ s ∈ rest) →
      CoversMoves (rest.foldl (fun acc p => acc.join p n) acc) out := by
    intro rest
    induction rest with
    | nil => exact fun acc hacc => hacc.resolve_right (by simp)
    | cons p rest ih =>
      intro acc hacc
      apply ih
      rcases hacc with hacc | hacc
      · exact .inl (CoversMoves.join hlocals (.inl hacc))
      · rcases mem_cons.1 hacc with rfl | hacc
        · exact .inl (CoversMoves.join hlocals (.inr h))
        · exact .inr hacc
  match preds, hmem with
  | first :: rest, hmem =>
    refine hfold rest first ?_
    rcases mem_cons.1 hmem with rfl | hmem
    · exact .inl h
    · exact .inr hmem

/-! ### Accepted accesses are clean -/

variable (h : CoversMoves s out)
include h

lemma CoversMoves.not_overlap (havail : s.placeState place = .available) (hm : m ∈ out) :
    placesOverlap m (trackedMovePlace place) = false := by
  obtain ⟨hroot, hfields⟩ := stateBy_eq_available.1 havail
  obtain ⟨-, hmoved | ⟨-, hfield⟩⟩ := h m hm
  · -- a place of another local
    have hl : m.localId ≠ place.localId := fun hl => hmoved (hl ▸ hroot)
    simp [placesOverlap, hl, Ne.symm hl]
  · exact hfields m hfield

lemma CoversMoves.clean (haccepted : a.Accepted s) : a.Clean out := by
  cases a with
  | read place | move place => exact fun m hm => h.not_overlap haccepted hm
  | through place =>
    obtain ⟨hroot, hfields⟩ := stateBy_eq_available.1 haccepted
    intro m hm hlt
    obtain ⟨-, hmoved | ⟨-, hfield⟩⟩ := h m hm
    · have hl : m.localId ≠ place.localId := fun hl => hmoved (hl ▸ hroot)
      simp [hl]
    · simpa [hlt] using hfields m hfield
  | destroy place =>
    intro m hm hoverlap
    rcases haccepted with hcleanup | havail
    · simp only [recursiveRootCleanup, Bool.and_eq_true, List.isEmpty_iff, beq_iff_eq] at hcleanup
      obtain ⟨⟨hproj, hroot⟩, -⟩ := hcleanup
      refine ⟨hproj, ?_⟩
      obtain ⟨-, hmoved | ⟨hne, -⟩⟩ := h m hm
      · -- the root is available, so nothing of this local is recorded there
        have hl : m.localId ≠ place.localId := fun hl => hmoved (hl ▸ hroot)
        simp [placesOverlap, hl, Ne.symm hl] at hoverlap
      · exact hne
    · rw [h.not_overlap havail hm] at hoverlap
      cases hoverlap
  | store place => trivial

lemma CoversMoves.access (a : Access) : CoversMoves (a.apply s) (a.run out) := by
  cases a with
  | read place => exact h
  | through place => exact h
  | move place | destroy place => exact h.movePlace place
  | store place => exact h.restorePlace place

lemma CoversMoves.accesses (as : List Access) :
    CoversMoves (as.foldl Access.apply s) (as.foldl Access.run out) :=
  foldl_rel h fun a _ _ _ h => h.access a

lemma CoversMoves.allClean (haccepted : AllAccepted s as) : AllClean out as := by
  induction as generalizing s out with
  | nil => trivial
  | cons a as ih => exact ⟨h.clean haccepted.1, ih (h.access a) haccepted.2⟩

end Covering

/-! ## Origins are places of the function -/

section Declared

variable {f : AmirFunc} {origins : Origins} {stmt : AmirStmt}

def OriginsDeclared (f : AmirFunc) (origins : Origins) : Prop :=
  ∀ t place, originFor origins t = some place → place.localId < f.locals.length

lemma OriginsDeclared.set (h : OriginsDeclared f origins) {place : AmirPlace}
    (hplace : place.localId < f.locals.length) (t : TempId) :
    OriginsDeclared f (origins.set t (some place)) := by
  intro t' place' hget
  rw [originFor, getD_eq_getElem?_getD, getElem?_set] at hget
  split at hget
  · split at hget
    · cases hget
      exact hplace
    · cases hget
  · exact h t' place' (by rw [originFor, getD_eq_getElem?_getD, hget])

lemma paramOrigins_declared (hlocals : f.LocalsDeclared)
    (hparams : f.params.length ≤ f.locals.length) : OriginsDeclared f (paramOrigins f) := by
  refine foldlRecOn _ _ (foldlRecOn _ _ ?_ fun o ho p hp => ?_) fun o ho block hblock => ?_
  · intro t place h
    rw [originFor, getD_eq_getElem?_getD, getElem?_replicate] at h
    split at h <;> cases h
  · apply ho.set
    exact lt_of_lt_of_le (lt_of_getElem? (List.mem_zipIdx_iff_getElem?.1 hp)) hparams
  · refine foldlRecOn _ _ ho fun o ho p hp => ho.set ?_ _
    obtain ⟨i, hi⟩ := mem_iff_getElem?.1 hblock
    apply hlocals.params i p
    rw [AmirFunc.blockParamsOf, AmirFunc.block, getD_eq_getElem?_getD, hi]
    exact hp

lemma originStep_declared (hlocals : f.LocalsDeclared) (h : OriginsDeclared f origins)
    (hstmt : stmt ∈ f.blockStmts b) : OriginsDeclared f (originStep f origins stmt) := by
  have htemp : ∀ (op : AmirOperand) (place : AmirPlace),
      op.temp?.bind (originFor origins) = some place → place.localId < f.locals.length := by
    intro op place hop
    obtain ⟨t, -, ht⟩ := Option.bind_eq_some_iff.1 hop
    exact h t place ht
  unfold originStep
  split
  next lhs rhs =>
    split
    · split
      next place hplace =>
        apply h.set
        unfold rvalueOrigin at hplace
        split at hplace
        · cases hplace
          exact hlocals.stmts b _ hstmt _ (by simp [AmirStmt.localIds, AmirRvalue.places])
        · obtain ⟨base, hbase, rfl⟩ := Option.map_eq_some_iff.1 hplace
          exact htemp _ base hbase
        · exact htemp _ _ hplace
        · cases hplace
      · exact h
    · exact h
  · exact h

lemma tempOrigins_declared (hlocals : f.LocalsDeclared)
    (hparams : f.params.length ≤ f.locals.length) : OriginsDeclared f (tempOrigins f) := by
  have hround : ∀ origins, OriginsDeclared f origins →
      OriginsDeclared f (originRound f origins) := by
    intro origins h
    refine foldlRecOn _ _ h fun o ho block _ => ?_
    exact foldlRecOn (f.blockStmts block.id) _ ho fun o ho stmt hstmt =>
      originStep_declared hlocals ho hstmt
  have hloop : ∀ fuel origins, OriginsDeclared f origins →
      OriginsDeclared f (tempOriginsLoop f fuel origins) := by
    intro fuel
    induction fuel with
    | zero => exact fun _ h => h
    | succ fuel ih =>
      intro origins h
      rw [tempOriginsLoop]
      split
      · exact h
      · exact ih _ (hround _ h)
  exact hloop _ _ (paramOrigins_declared hlocals hparams)

/-- The place an access is about. -/
def Access.place : Access → AmirPlace
  | .read place | .through place | .move place | .destroy place | .store place => place

section Places

variable {origins : Origins} (horigins : OriginsDeclared f origins) {op : AmirOperand}

include horigins

lemma inspection_declared (ha : a ∈ inspection origins op) : a.place.localId < f.locals.length := by
  obtain ⟨place, hplace, rfl⟩ : ∃ place, op.temp?.bind (originFor origins) = some place ∧
      .read place = a := by
    simpa only [inspection, Option.mem_toList, Option.map_eq_some_iff] using ha
  obtain ⟨t, -, ht⟩ := Option.bind_eq_some_iff.1 hplace
  exact horigins t place ht

lemma operandAccess_declared
    (ha : a ∈ operandAccess f origins op) : a.place.localId < f.locals.length := by
  unfold operandAccess at ha
  split at ha
  next t =>
    obtain ⟨place, hplace, rfl⟩ : ∃ place, movedPlace f origins (.move t) = some place ∧
        .move place = a := by
      simpa only [Option.mem_toList, Option.map_eq_some_iff] using ha
    unfold movedPlace at hplace
    dsimp only at hplace
    split at hplace
    · cases hplace
    · exact horigins t place hplace
  · exact inspection_declared horigins ha

lemma operandAccesses_declared {ops : List AmirOperand}
    (ha : a ∈ ops.flatMap (operandAccess f origins)) : a.place.localId < f.locals.length := by
  obtain ⟨op, -, hop⟩ := mem_flatMap.1 ha
  exact operandAccess_declared horigins hop

lemma stmtAccesses_declared (hlocals : f.LocalsDeclared)
    (hstmt : stmt ∈ f.blockStmts b) (ha : a ∈ stmtAccesses f origins stmt) :
    a.place.localId < f.locals.length := by
  have hnamed := hlocals.stmts b stmt hstmt
  unfold stmtAccesses at ha
  split at ha
  · rcases mem_append.1 ha with ha | ha
    · obtain ⟨place, hplace, rfl⟩ := mem_map.1 ha
      exact hnamed _ (mem_map_of_mem hplace)
    · obtain ⟨op, -, hop⟩ := mem_flatMap.1 ha
      split at hop
      · exact inspection_declared horigins hop
      · exact operandAccess_declared horigins hop
  next lhs rhs =>
    have hlhs : lhs.localId < f.locals.length := hnamed _ mem_cons_self
    rcases mem_append.1 ha with ha | ha
    · rcases mem_append.1 ha with ha | ha
      · split at ha
        · cases ha
        · rw [mem_singleton.1 ha]
          exact hlhs
      · exact operandAccess_declared horigins ha
    · rw [mem_singleton.1 ha]
      exact hlhs
  · exact operandAccesses_declared horigins ha
  · exact operandAccess_declared horigins ha
  · rw [mem_singleton.1 ha]
    exact hnamed _ mem_cons_self
  all_goals cases ha

lemma blockAccesses_declared (hlocals : f.LocalsDeclared)
    (ha : a ∈ blockAccesses f origins b) : a.place.localId < f.locals.length := by
  rcases mem_append.1 ha with ha | ha <;> obtain ⟨x, hx, hmem⟩ := mem_flatMap.1 ha
  · exact stmtAccesses_declared horigins hlocals hx hmem
  · exact inspection_declared horigins hmem

end Places

lemma run_declared (has : ∀ a ∈ as, a.place.localId < n) {out : List AmirPlace}
    (hout : ∀ m ∈ out, m.localId < n) : ∀ m ∈ as.foldl Access.run out, m.localId < n := by
  refine foldlRecOn (motive := fun out => ∀ m ∈ out, m.localId < n) as Access.run hout
    fun out hout a ha => ?_
  have hplace := has a ha
  cases a with
  | read place => exact hout
  | through place => exact hout
  | move place | destroy place => simpa [Access.run, Access.place] using And.intro hplace hout
  | store place => exact fun m hm => hout m (mem_filter.1 hm).1

end Declared

end Arandu.Mir
