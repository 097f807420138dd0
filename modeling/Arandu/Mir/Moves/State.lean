import Arandu.Amir.Visit
import Mathlib.Data.Finset.Card

/-!
# Move states

The state of the move checker: one of three states for every local, and sparse lists of moved
field paths below locals that are still there. Paths are compared after `trackedMovePlace`,
which forgets dereferences and collapses a dynamic index to the whole local.
-/

namespace Arandu.Mir

open Arandu.Amir

/-! ## Places -/

/-- An index whose value is not known here: such a path stands for the whole local. -/
def isDynamicIndex : AmirProjection → Bool
  | .index (.constant (.pool _)) => false
  | .index _ => true
  | _ => false

def trackedMovePlace (place : AmirPlace) : AmirPlace :=
  if place.projections.any isDynamicIndex then ⟨place.localId, []⟩
  else ⟨place.localId, place.projections.filter (· ≠ .deref)⟩

def placeIsPrefix (pre place : AmirPlace) : Bool :=
  pre.localId == place.localId && pre.projections.isPrefixOf place.projections

def placesOverlap (left right : AmirPlace) : Bool :=
  placeIsPrefix left right || placeIsPrefix right left

@[simp] lemma trackedMovePlace_localId (place : AmirPlace) :
    (trackedMovePlace place).localId = place.localId := by
  unfold trackedMovePlace
  split <;> rfl

/-! ## States -/

inductive LocalMoveState where
  | available | moved | maybeMoved
deriving DecidableEq, Repr

def joinMoveState (left right : LocalMoveState) : LocalMoveState :=
  if left = right then left else .maybeMoved

structure MoveState where
  moved : Finset LocalId
  maybeMoved : Finset LocalId
  movedFields : List AmirPlace
  maybeMovedFields : List AmirPlace
deriving DecidableEq

namespace MoveState

/-- Everything is available. -/
def new : MoveState := ⟨∅, ∅, [], []⟩

variable (s : MoveState)

def rootState (l : LocalId) : LocalMoveState :=
  if l ∈ s.moved then .moved else if l ∈ s.maybeMoved then .maybeMoved else .available

/-- Give a whole local a state; what was known about its fields is forgotten. -/
def set (l : LocalId) (state : LocalMoveState) : MoveState :=
  { moved := if state = .moved then insert l s.moved else s.moved.erase l
    maybeMoved := if state = .maybeMoved then insert l s.maybeMoved else s.maybeMoved.erase l
    movedFields := s.movedFields.filter (·.localId ≠ l)
    maybeMovedFields := s.maybeMovedFields.filter (·.localId ≠ l) }

/-- The state of a local, or of the recorded fields of it that `related` picks. -/
def stateBy (related : AmirPlace → Bool) (s : MoveState) (l : LocalId) : LocalMoveState :=
  if s.rootState l ≠ .available then s.rootState l
  else if s.movedFields.any related then .moved
  else if s.maybeMovedFields.any related then .maybeMoved
  else .available

variable (place : AmirPlace)

/-- Something that overlaps the place is moved. -/
def placeState : LocalMoveState :=
  s.stateBy (fun m => placesOverlap m (trackedMovePlace place)) place.localId

/-- The place or an ancestor is moved. -/
def fieldFactState : LocalMoveState :=
  s.stateBy (fun m => placeIsPrefix m (trackedMovePlace place)) place.localId

/-- A strict ancestor of the place is moved. -/
def placeBaseState : LocalMoveState :=
  s.stateBy (fun m =>
    decide (m.projections.length < (trackedMovePlace place).projections.length) &&
      placeIsPrefix m (trackedMovePlace place)) place.localId

/-- The moved path lies strictly below the place. -/
def isDescendant (m : AmirPlace) : Bool :=
  m.localId == (trackedMovePlace place).localId &&
    decide ((trackedMovePlace place).projections.length < m.projections.length) &&
    placeIsPrefix (trackedMovePlace place) m

def hasMovedDescendant : Bool :=
  s.movedFields.any (isDescendant place) || s.maybeMovedFields.any (isDescendant place)

def hasExactField : Bool :=
  s.movedFields.contains place || s.maybeMovedFields.contains place

def pushFieldState : LocalMoveState → MoveState
  | .available => s
  | .moved =>
    if s.movedFields.contains place then s
    else { s with movedFields := s.movedFields ++ [place] }
  | .maybeMoved =>
    if s.maybeMovedFields.contains place then s
    else { s with maybeMovedFields := s.maybeMovedFields ++ [place] }

def movePlace : MoveState :=
  let tracked := trackedMovePlace place
  if tracked.projections.isEmpty then s.set tracked.localId .moved
  else s.pushFieldState tracked .moved

def restorePlace : MoveState :=
  let tracked := trackedMovePlace place
  if tracked.projections.isEmpty then s.set tracked.localId .available
  else
    { s with
      movedFields := s.movedFields.filter fun m => !placeIsPrefix tracked m
      maybeMovedFields := s.maybeMovedFields.filter fun m => !placeIsPrefix tracked m }

def fields : List AmirPlace := s.movedFields ++ s.maybeMovedFields

def joinRoots (t : MoveState) (numLocals : Nat) : MoveState :=
  (List.range numLocals).foldl
    (fun joined l => joined.set l (joinMoveState (s.rootState l) (t.rootState l))) .new

def join (t : MoveState) (numLocals : Nat) : MoveState :=
  (s.fields ++ t.fields).foldl (fun joined place =>
      if joined.hasExactField place then joined
      else joined.pushFieldState place
        (joinMoveState (s.fieldFactState place) (t.fieldFactState place)))
    (joinRoots s t numLocals)

def joinPredecessors (preds : List MoveState) (numLocals : Nat) : MoveState :=
  match preds with
  | [] => .new
  | first :: rest => rest.foldl (fun acc pred => acc.join pred numLocals) first

end MoveState

end Arandu.Mir
