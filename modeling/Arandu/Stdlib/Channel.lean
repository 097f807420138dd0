import Arandu.Library.LinearProbing
import Mathlib.Data.List.Rotate

/-!
# Channels

`stdlib/std/runtime/channel.aru`: a bounded queue in a ring of optional cells. Read from `head` on,
the ring is the queue followed by empty cells.
-/

namespace Arandu.Stdlib

open List Library

variable {α : Type}

structure Channel (α : Type) where
  buf : List (Option α)
  cap : Nat
  head : Nat
  tail : Nat
  len : Nat
  isClosed : Bool
deriving DecidableEq, Repr

/-- A size that is invalid, or that the allocator does not grant, aborts. -/
def Channel.new (elemSize capacity : Nat) (granted : Bool) : Option (Channel α) :=
  let cap := if capacity = 0 then 1 else capacity
  let maxBytes := 2147483647
  if elemSize = 0 ∨ cap > maxBytes ∨ cap > maxBytes / elemSize ∨ !granted then none
  else some ⟨replicate cap none, cap, 0, 0, 0, false⟩

variable (self : Channel α)

def Channel.close : Channel α := { self with isClosed := true }

def Channel.trySend (val : α) : Bool × Channel α :=
  if self.isClosed ∨ self.len = self.cap then (false, self)
  else
    (true, { self with
      buf := self.buf.set self.tail (some val)
      tail := (self.tail + 1) % self.cap
      len := self.len + 1 })

def Channel.tryRecv : Option α × Channel α :=
  if self.len = 0 then (none, self)
  else
    (self.buf.getD self.head none, { self with
      buf := self.buf.set self.head none
      head := (self.head + 1) % self.cap
      len := self.len - 1 })

/-- The values that are dropped: those of all cells that are not empty. -/
def destroyChannel (c : Channel α) : List α := c.buf.filterMap id

inductive ChannelOp (α : Type) where
  | trySend (val : α)
  | tryRecv
  | close
deriving DecidableEq, Repr

/-- A channel with the values it has accepted and given out, the oldest first. -/
structure ChannelRun (α : Type) where
  chan : Channel α
  accepted : List α
  received : List α

def ChannelRun.step (s : ChannelRun α) : ChannelOp α → ChannelRun α
  | .trySend val =>
    let (ok, chan) := s.chan.trySend val
    { s with chan, accepted := s.accepted ++ if ok then [val] else [] }
  | .tryRecv =>
    let (item, chan) := s.chan.tryRecv
    { s with chan, received := s.received ++ item.toList }
  | .close => { s with chan := s.chan.close }

/-! ## The ring -/

/-- Writing a cell of the ring writes the cell as far from where reading starts. -/
lemma set_rotate {cells : List α} {i : Nat} (hi : i < cells.length) (start : Nat) (v : α) :
    (cells.set ((start + i) % cells.length) v).rotate start = (cells.rotate start).set i v := by
  refine ext_getElem (by simp) fun k hk _ => ?_
  rw [length_rotate, length_set] at hk
  simp only [getElem_rotate, getElem_set, length_set]
  rw [Nat.add_comm k start]
  exact if_congr ⟨offset_inj hi hk, congrArg fun j => (start + j) % cells.length⟩ rfl rfl

/-- `held` are the values in the channel, the oldest first. -/
structure ChannelInv (c : Channel α) (held : List α) : Prop where
  length : c.buf.length = c.cap
  len : c.len = held.length
  tail : c.tail = (c.head + held.length) % c.cap
  head : c.head < c.cap
  cells : ∃ free, c.buf.rotate c.head = held.map some ++ replicate free none ∧
    held.length + free = c.cap

variable {c : Channel α} {held : List α}

lemma ChannelInv.trySend (h : ChannelInv c held) (hopen : c.isClosed = false)
    (hroom : held.length ≠ c.cap) (v : α) :
    ∃ c', c.trySend v = (true, c') ∧ c'.isClosed = c.isClosed ∧ c'.cap = c.cap ∧
      ChannelInv c' (held ++ [v]) := by
  obtain ⟨hlength, hlen, htail, hhead, free, hcells, hfree⟩ := h
  -- the cell after the queue is the first of the empty ones
  obtain ⟨free, rfl⟩ := Nat.exists_eq_succ_of_ne_zero (show free ≠ 0 by omega)
  refine ⟨_, if_neg (by simp [hopen, hlen, hroom]), rfl, rfl, ?_⟩
  refine ⟨by simpa using hlength, by simp [hlen], by simp [htail, Nat.add_assoc], hhead,
    free, ?_, ?_⟩
  · have hset := set_rotate (show held.length < c.buf.length by omega) c.head (some v)
    rw [hlength, ← htail, hcells] at hset
    exact hset.trans (by simp [replicate_succ])
  · simp only [length_append, length_singleton]
    omega

lemma ChannelInv.tryRecv {v : α} (h : ChannelInv c (v :: held)) :
    ∃ c', c.tryRecv = (some v, c') ∧ c'.isClosed = c.isClosed ∧ c'.cap = c.cap ∧
      ChannelInv c' held := by
  obtain ⟨hlength, hlen, htail, hhead, free, hcells, hfree⟩ := h
  have hfirst : c.buf.getD c.head none = some v := by
    rw [getD_eq_getElem?_getD, ← head?_rotate (hlength ▸ hhead), hcells]
    rfl
  have hnext : c.tryRecv = (c.buf.getD c.head none, _) := if_neg (by simp [hlen])
  rw [hfirst] at hnext
  refine ⟨_, hnext, rfl, rfl, by simpa using hlength, by simp [hlen], ?_, ?_, free + 1, ?_, ?_⟩
  · simp [htail, Nat.add_right_comm, Nat.add_assoc]
  · exact Nat.mod_lt _ (Nat.zero_lt_of_lt hhead)
  · have hset := set_rotate (show 0 < c.buf.length by omega) c.head none
    rw [Nat.add_zero, hlength, Nat.mod_eq_of_lt hhead, hcells] at hset
    have hmod := rotate_mod (c.buf.set c.head none) (c.head + 1)
    rw [length_set, hlength, ← rotate_rotate, hset] at hmod
    exact hmod.trans (by simp [replicate_succ'])
  · simpa [Nat.add_right_comm, Nat.add_assoc] using hfree

lemma ChannelInv.destroy (h : ChannelInv c held) : destroyChannel c ~ held := by
  obtain ⟨free, hcells, -⟩ := h.cells
  have hperm := ((rotate_perm c.buf c.head).filterMap id).symm
  rw [hcells, filterMap_append, filterMap_map] at hperm
  exact hperm.trans (by simp)

/-! ## Whole runs -/

attribute [local simp] ChannelRun.step in
lemma ChannelRun.step_inv {s : ChannelRun α} (hheld : s.accepted = s.received ++ held)
    (h : ChannelInv s.chan held) (op : ChannelOp α) :
    ∃ held', (s.step op).accepted = (s.step op).received ++ held' ∧
      ChannelInv (s.step op).chan held' ∧ (s.step op).chan.cap = s.chan.cap ∧
      ((s.step op).chan.isClosed ↔ s.chan.isClosed ∨ op = .close) := by
  cases op with
  | trySend v =>
    by_cases hfail : s.chan.isClosed ∨ s.chan.len = s.chan.cap
    · have heq : s.chan.trySend v = (false, s.chan) := if_pos hfail
      exact ⟨held, by simp [heq, hheld], by simpa [heq], by simp [heq]⟩
    · rw [h.len, not_or, Bool.not_eq_true] at hfail
      obtain ⟨c', heq, hclosed, hcap, hinv⟩ := h.trySend hfail.1 hfail.2 v
      exact ⟨held ++ [v], by simp [heq, hheld], by simpa [heq], by simp [*]⟩
  | tryRecv =>
    cases held with
    | nil =>
      have heq : s.chan.tryRecv = (none, s.chan) := if_pos h.len
      exact ⟨[], by simp [heq, hheld], by simpa [heq], by simp [heq]⟩
    | cons v rest =>
      obtain ⟨c', heq, hclosed, hcap, hinv⟩ := h.tryRecv
      exact ⟨rest, by simp [heq, hheld], by simpa [heq], by simp [*]⟩
  | close => exact ⟨held, hheld, ⟨h.1, h.2, h.3, h.4, h.5⟩, rfl, by simp [Channel.close]⟩

/-- A channel is a bounded queue; what is left in it is dropped with it. -/
theorem channel_fifo {elemSize capacity : Nat} {granted : Bool}
    (hnew : Channel.new elemSize capacity granted = some c) (ops : List (ChannelOp α)) :
    let s := ops.foldl ChannelRun.step ⟨c, [], []⟩
    ∃ held, s.accepted = s.received ++ held ∧
      (∀ v, (s.chan.trySend v).1 = false ↔ .close ∈ ops ∨ held.length = max 1 capacity) ∧
      (s.chan.tryRecv.1 = none ↔ held = []) ∧ destroyChannel s.chan ~ held := by
  suffices hrun : let s := ops.foldl ChannelRun.step ⟨c, [], []⟩
      ∃ held, s.accepted = s.received ++ held ∧ ChannelInv s.chan held ∧
        s.chan.cap = max 1 capacity ∧ (s.chan.isClosed ↔ .close ∈ ops) by
    obtain ⟨held, hheld, hinv, hcap, hclosed⟩ := hrun
    refine ⟨held, hheld, fun v => ?_, ?_, hinv.destroy⟩
    · rw [← hclosed, ← hcap, ← hinv.len, Channel.trySend]
      split_ifs with hfail <;> simp [hfail]
    · cases held with
      | nil => simp [Channel.tryRecv, hinv.len]
      | cons v rest =>
        obtain ⟨c', heq, -⟩ := hinv.tryRecv
        simp [heq]
  induction ops using reverseRecOn with
  | nil =>
    have hcap : (if capacity = 0 then 1 else capacity) = max 1 capacity := by
      split_ifs <;> omega
    simp only [Channel.new, hcap] at hnew
    split_ifs at hnew
    obtain rfl := Option.some.inj hnew
    refine ⟨[], rfl, ⟨length_replicate, rfl, rfl, ?_, max 1 capacity, ?_, ?_⟩, rfl, ?_⟩
    · exact Nat.le_max_left _ _
    · exact rotate_zero _
    · exact Nat.zero_add _
    · simp
  | append_singleton ops op ih =>
    obtain ⟨held, hheld, hinv, hcap, hclosed⟩ := ih
    obtain ⟨held', hheld', hinv', hcap', hclosed'⟩ := ChannelRun.step_inv hheld hinv op
    rw [foldl_concat]
    exact ⟨held', hheld', hinv', hcap'.trans hcap, by simp [hclosed', hclosed, eq_comm]⟩

/-- A value is left in the channel. -/
theorem channel_fifo_left : destroyChannel ⟨[none, some 7], 2, 1, 0, 1, true⟩ ~ [7] := by
  obtain ⟨held, hheld, -, -, hdropped⟩ := @channel_fifo Nat _ 8 2 true rfl
    [.trySend 5, .trySend 7, .trySend 9, .tryRecv, .close]
  have heq : [5, 7] = [5] ++ held := hheld
  cases heq
  exact hdropped

/-- A channel of capacity zero accepts a value. -/
theorem trySend_zero_capacity :
    (Channel.new 8 0 true).map (fun c : Channel Nat => (c.trySend 5).1) = some true := by
  rfl

end Arandu.Stdlib
