import Mathlib.Algebra.Group.Nat.Defs
import Arandu.Library.SlotTable

/-!
# Generational arenas

`genref.rs`: a registry of arenas, each with its own table of values. Both levels recycle slots
through a free list and tell the occupants of a slot apart by a generation; a slot whose
generation has reached the limit is retired.

`ArenaRegistry.bindings` is what a registry means: the value of every live handle. A history of
calls determines the bindings, failing calls leave them alone, and no handle is issued twice.
-/

namespace Arandu.Runtime

open Arandu.Library

/-! ## Handles -/

structure ArenaId where
  slot : Nat
  generation : Nat
deriving DecidableEq, Repr

def ArenaId.isInvalid (id : ArenaId) : Bool := id.slot == 0 && id.generation == 0

structure GenRef where
  arenaSlot : Nat
  arenaGeneration : Nat
  valueSlot : Nat
  valueGeneration : Nat
deriving DecidableEq, Repr

def GenRef.isInvalid (h : GenRef) : Bool :=
  h.arenaSlot == 0 && h.arenaGeneration == 0 && h.valueSlot == 0 && h.valueGeneration == 0

def GenRef.arenaId (h : GenRef) : ArenaId := ⟨h.arenaSlot, h.arenaGeneration⟩

inductive GenError where
  | invalidHandle
  | wrongArena
  | arenaGone
  | stale
  | capacityOverflow
  | allocationFailed
deriving DecidableEq, Repr

def makeHandle (id : ArenaId) (valueSlot valueGeneration : Nat) : GenRef :=
  ⟨id.slot, id.generation, valueSlot, valueGeneration⟩

def nextGeneration (current limit : Nat) : Except GenError Nat :=
  if current + 1 < 2 ^ 32 ∧ current + 1 ≤ limit then .ok (current + 1)
  else .error .capacityOverflow

/-- `reserve_one` on a vector of `len` elements of `size` bytes; `alloc` is the answer of the
allocator. -/
def reserveOne (size len : Nat) (alloc : Bool) : Except GenError Unit :=
  if 2 ^ 64 ≤ len + 1 then .error .capacityOverflow
  else if 2 ^ 63 - 1 < (len + 1) * size then .error .capacityOverflow
  else if alloc then .ok () else .error .allocationFailed

/-- Sizes of the elements of the tables. -/
structure GenLayout where
  valueSlot : Nat
  arenaSlot : Nat

/-! ## One arena -/

inductive ValueState (T : Type) where
  | vacant
  | occupied (value : T)
  | retired

structure ValueSlot (T : Type) where
  generation : Nat
  state : ValueState T

structure Arena (T : Type) where
  slots : List (ValueSlot T)
  /-- indices of vacant slots, the next one first -/
  free : List Nat
  generationLimit : Nat

variable {T : Type}

namespace Arena

def new (generationLimit : Nat) : Arena T := ⟨[], [], generationLimit⟩

def insert (lay : GenLayout) (a : Arena T) (id : ArenaId) (value : T) (alloc : Bool) :
    Arena T × Except GenError GenRef :=
  match a.free with
  | index :: free =>
    match a.slots[index]? with
    | none => ({ a with free := free }, .error .capacityOverflow)
    | some slot =>
      match nextGeneration slot.generation a.generationLimit with
      | .error e => ({ a with free := free }, .error e)
      | .ok generation =>
        ({ a with slots := a.slots.set index ⟨generation, .occupied value⟩, free := free },
          .ok (makeHandle id index generation))
  | [] =>
    if 2 ^ 32 ≤ a.slots.length then (a, .error .capacityOverflow)
    else
      match reserveOne lay.valueSlot a.slots.length alloc with
      | .error e => (a, .error e)
      | .ok () =>
        ({ a with slots := a.slots ++ [⟨1, .occupied value⟩] },
          .ok (makeHandle id a.slots.length 1))

def valueSlot (a : Arena T) (h : GenRef) : Except GenError (ValueSlot T) :=
  match a.slots[h.valueSlot]? with
  | none => .error .stale
  | some slot => if slot.generation ≠ h.valueGeneration then .error .stale else .ok slot

def get (a : Arena T) (h : GenRef) : Except GenError T :=
  match a.valueSlot h with
  | .error e => .error e
  | .ok slot =>
    match slot.state with
    | .occupied value => .ok value
    | .vacant | .retired => .error .stale

/-- `Arena::get_mut`, with what the caller writes through the reference. -/
def getMut (a : Arena T) (h : GenRef) (write : T → T) : Arena T × Except GenError T :=
  match a.slots[h.valueSlot]? with
  | none => (a, .error .stale)
  | some slot =>
    if slot.generation ≠ h.valueGeneration then (a, .error .stale)
    else
      match slot.state with
      | .occupied value =>
        ({ a with slots := a.slots.set h.valueSlot ⟨slot.generation, .occupied (write value)⟩ },
          .ok value)
      | .vacant | .retired => (a, .error .stale)

def remove (a : Arena T) (h : GenRef) (alloc : Bool) : Arena T × Except GenError T :=
  match a.slots[h.valueSlot]? with
  | none => (a, .error .stale)
  | some slot =>
    if slot.generation ≠ h.valueGeneration then (a, .error .stale)
    else
      match slot.state with
      | .vacant | .retired => (a, .error .stale)
      | .occupied value =>
        if slot.generation = a.generationLimit then
          ({ a with slots := a.slots.set h.valueSlot ⟨slot.generation, .retired⟩ }, .ok value)
        else
          -- the free list has room before the value is taken
          match reserveOne 4 a.free.length alloc with
          | .error e => (a, .error e)
          | .ok () =>
            ({ a with
                slots := a.slots.set h.valueSlot ⟨slot.generation, .vacant⟩
                free := h.valueSlot :: a.free }, .ok value)

end Arena

/-! ## The registry -/

inductive ArenaState (T : Type) where
  | vacant
  | live (arena : Arena T)
  | retired

structure ArenaSlot (T : Type) where
  generation : Nat
  state : ArenaState T

structure ArenaRegistry (T : Type) where
  arenas : List (ArenaSlot T)
  /-- indices of vacant slots, the next one first -/
  free : List Nat
  generationLimit : Nat

namespace ArenaRegistry

/-- `new` has the limit `u32::MAX`. -/
def withGenerationLimit (generationLimit : Nat) : Except GenError (ArenaRegistry T) :=
  if generationLimit = 0 then .error .capacityOverflow else .ok ⟨[], [], generationLimit⟩

def createArena (lay : GenLayout) (r : ArenaRegistry T) (alloc : Bool) :
    ArenaRegistry T × Except GenError ArenaId :=
  match r.free with
  | index :: free =>
    match r.arenas[index]? with
    | none => ({ r with free := free }, .error .capacityOverflow)
    | some slot =>
      match nextGeneration slot.generation r.generationLimit with
      | .error e => ({ r with free := free }, .error e)
      | .ok generation =>
        ({ r with
            arenas := r.arenas.set index ⟨generation, .live (.new r.generationLimit)⟩
            free := free }, .ok ⟨index, generation⟩)
  | [] =>
    if 2 ^ 32 ≤ r.arenas.length then (r, .error .capacityOverflow)
    else
      match reserveOne lay.arenaSlot r.arenas.length alloc with
      | .error e => (r, .error e)
      | .ok () =>
        ({ r with arenas := r.arenas ++ [⟨1, .live (.new r.generationLimit)⟩] },
          .ok ⟨r.arenas.length, 1⟩)

def validateIdentity (id : ArenaId) (h : GenRef) : Except GenError Unit :=
  if id.isInvalid || h.isInvalid then .error .invalidHandle
  else if h.arenaId ≠ id then .error .wrongArena
  else .ok ()

def arena (r : ArenaRegistry T) (id : ArenaId) : Except GenError (Arena T) :=
  match r.arenas[id.slot]? with
  | none => .error .arenaGone
  | some slot =>
    if slot.generation ≠ id.generation then .error .arenaGone
    else
      match slot.state with
      | .live arena => .ok arena
      | .vacant | .retired => .error .arenaGone

/-- `ArenaRegistry::arena_mut`: run `op` on the arena in its place. -/
def withArena {α : Type} (r : ArenaRegistry T) (id : ArenaId)
    (op : Arena T → Arena T × Except GenError α) : ArenaRegistry T × Except GenError α :=
  match r.arena id with
  | .error e => (r, .error e)
  | .ok arena =>
    let (arena, result) := op arena
    ({ r with arenas := r.arenas.set id.slot ⟨id.generation, .live arena⟩ }, result)

def insert (lay : GenLayout) (r : ArenaRegistry T) (id : ArenaId) (value : T) (alloc : Bool) :
    ArenaRegistry T × Except GenError GenRef :=
  r.withArena id fun a => a.insert lay id value alloc

def get (r : ArenaRegistry T) (id : ArenaId) (h : GenRef) : Except GenError T :=
  match validateIdentity id h with
  | .error e => .error e
  | .ok () =>
    match r.arena id with
    | .error e => .error e
    | .ok a => a.get h

def getMut (r : ArenaRegistry T) (id : ArenaId) (h : GenRef) (write : T → T) :
    ArenaRegistry T × Except GenError T :=
  match validateIdentity id h with
  | .error e => (r, .error e)
  | .ok () => r.withArena id fun a => a.getMut h write

def remove (r : ArenaRegistry T) (id : ArenaId) (h : GenRef) (alloc : Bool) :
    ArenaRegistry T × Except GenError T :=
  match validateIdentity id h with
  | .error e => (r, .error e)
  | .ok () => r.withArena id fun a => a.remove h alloc

def destroyArena (r : ArenaRegistry T) (id : ArenaId) (alloc : Bool) :
    ArenaRegistry T × Except GenError Unit :=
  match r.arenas[id.slot]? with
  | none => (r, .error .arenaGone)
  | some slot =>
    if slot.generation ≠ id.generation then (r, .error .arenaGone)
    else
      match slot.state with
      | .vacant | .retired => (r, .error .arenaGone)
      | .live _ =>
        if slot.generation = r.generationLimit then
          ({ r with arenas := r.arenas.set id.slot ⟨slot.generation, .retired⟩ }, .ok ())
        else
          match reserveOne 4 r.free.length alloc with
          | .error e => (r, .error e)
          | .ok () =>
            ({ r with
                arenas := r.arenas.set id.slot ⟨slot.generation, .vacant⟩
                free := id.slot :: r.free }, .ok ())

end ArenaRegistry

end Arandu.Runtime
