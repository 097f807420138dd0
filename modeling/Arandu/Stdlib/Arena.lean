import Mathlib.Order.Lattice

/-!
# Arenas

`stdlib/alloc/arena.aru`: an arena hands out parts of one buffer. The parts lie in it and do not
overlap, but it is their offset in the buffer that is a multiple of the alignment, so their
address is one only if the address of the buffer is.
-/

namespace Arandu.Stdlib

def maxArenaCapacity : Nat := 2147483647

/-- The null pointer is zero. -/
structure Arena where
  data : Nat
  capacity : Nat
  offset : Nat
deriving DecidableEq, Repr

/-- `base` is what `ar_vec_malloc` returns. -/
def Arena.new (base capacity : Nat) : Arena :=
  if capacity > maxArenaCapacity then ⟨0, 0, 0⟩ else ⟨base, capacity, 0⟩

/-- What an alignment above one skips. -/
def padding (offset align : Nat) : Nat :=
  if align > 1 ∧ offset % align ≠ 0 then align - offset % align else 0

def Arena.alloc (self : Arena) (size align : Nat) : Option Nat × Arena :=
  let skipped := padding self.offset align
  let aligned := self.offset + skipped
  if self.data = 0 ∨ self.capacity > maxArenaCapacity ∨ self.offset > self.capacity then
    (none, self)
  else if skipped > self.capacity - self.offset then (none, self)
  else if size > self.capacity - aligned then (none, self)
  else (some (self.data + aligned), { self with offset := aligned + size })

structure ScratchArena extends Arena where
  peak : Nat
deriving DecidableEq, Repr

/-- `alloc` as in `Arena`, which may raise the peak. -/
def ScratchArena.alloc (self : ScratchArena) (size align : Nat) : Option Nat × ScratchArena :=
  match self.toArena.alloc size align with
  | (some p, a) => (some p, ⟨a, max self.peak a.offset⟩)
  | (none, a) => (none, ⟨a, self.peak⟩)

def ScratchArena.rewind (self : ScratchArena) (mark : Nat) : ScratchArena :=
  if mark ≤ self.offset then { self with offset := mark } else self

/-- The sizes and alignments `alloc` and `allocTyped` are called with. -/
inductive Request where
  | alloc (size align : Nat)
  | allocTyped (elemSize elemAlign count : Nat)
deriving DecidableEq, Repr

def Request.size : Request → Nat
  | .alloc size _ => size
  | .allocTyped elemSize _ count => elemSize * count

def Request.align : Request → Nat
  | .alloc _ align => align
  | .allocTyped _ elemAlign _ => elemAlign

/-- `allocTyped` refuses what is too long. -/
def Request.tooLong : Request → Bool
  | .alloc _ _ => false
  | .allocTyped elemSize _ count => elemSize > 0 ∧ count > maxArenaCapacity / elemSize

inductive AnyArena where
  | arena (a : Arena)
  | scratch (s : ScratchArena)
deriving DecidableEq, Repr

def AnyArena.toArena : AnyArena → Arena
  | .arena a => a
  | .scratch s => s.toArena

def AnyArena.request (r : Request) (self : AnyArena) : Option Nat × AnyArena :=
  if r.tooLong then (none, self)
  else match self with
    | .arena a => (a.alloc r.size r.align).map id .arena
    | .scratch s => (s.alloc r.size r.align).map id .scratch

inductive ArenaOp where
  | request (r : Request)
  | rewind (mark : Nat)

/-- One call, with the regions that are live: where they start and how long they are. -/
def arenaStep (s : AnyArena × List (Nat × Nat)) : ArenaOp → AnyArena × List (Nat × Nat)
  | .request r => ((s.1.request r).2, ((s.1.request r).1.map fun p => (p, r.size)).toList ++ s.2)
  | .rewind mark =>
    match s.1 with
    | .arena _ => s
    | .scratch a =>
      (.scratch (a.rewind mark), s.2.filter fun (q, n) => mark ≤ a.offset → q + n ≤ a.data + mark)

/-! ## Regions -/

/-- The regions lie in the part of the buffer that is in use. -/
structure ArenaInv (base size : Nat) (a : Arena) (live : List (Nat × Nat)) : Prop where
  data : a.data = base
  capacity : a.capacity = size
  offset : a.offset ≤ size
  live : ∀ q n, (q, n) ∈ live → base ≤ q ∧ q + n ≤ base + a.offset

variable {base capacity : Nat} {a : Arena} {live : List (Nat × Nat)}

lemma ArenaInv.request (hinv : ArenaInv base capacity a live) {start n : Nat}
    (hle : a.offset ≤ start) (hfits : start + n ≤ a.capacity) :
    ArenaInv base capacity { a with offset := start + n } ((a.data + start, n) :: live) := by
  obtain ⟨rfl, rfl, hoffset, hlive⟩ := hinv
  refine ⟨rfl, rfl, hfits, fun q m hmem => ?_⟩
  rcases List.mem_cons.1 hmem with hnew | hold
  · cases hnew
    exact ⟨Nat.le_add_right _ _, (Nat.add_assoc _ _ _).le⟩
  · obtain ⟨hfirst, hend⟩ := hlive q m hold
    exact ⟨hfirst, hend.trans (by dsimp only; omega)⟩

lemma ArenaInv.rewind (hinv : ArenaInv base capacity a live) {mark : Nat}
    (hmark : mark ≤ a.offset) : ArenaInv base capacity { a with offset := mark }
      (live.filter fun (q, n) => mark ≤ a.offset → q + n ≤ a.data + mark) := by
  obtain ⟨rfl, rfl, hoffset, hlive⟩ := hinv
  refine ⟨rfl, rfl, hmark.trans hoffset, fun q n hmem => ?_⟩
  obtain ⟨hmem, hkept⟩ := List.mem_filter.1 hmem
  exact ⟨(hlive q n hmem).1, of_decide_eq_true hkept hmark⟩

lemma dvd_padding (offset : Nat) {align : Nat} (h : 0 < align) :
    align ∣ offset + padding offset align := by
  unfold padding
  split_ifs with hpad
  · have heq : offset + (align - offset % align) = offset - offset % align + align := by
      have hlt := Nat.mod_lt offset h
      have hle := Nat.mod_le offset align
      omega
    rw [heq]
    exact Nat.dvd_add (Nat.dvd_sub_mod offset) (Nat.dvd_refl align)
  · rw [not_and_or, not_not, Nat.not_lt] at hpad
    rcases hpad with hone | hzero
    · obtain rfl : align = 1 := by omega
      exact Nat.one_dvd _
    · exact Nat.dvd_of_mod_eq_zero hzero

lemma AnyArena.request_cases (a : AnyArena) (r : Request) :
    (a.request r).1 = none ∧ (a.request r).2.toArena = a.toArena ∨
      ∃ start, (0 < r.align → r.align ∣ start) ∧ a.toArena.offset ≤ start ∧
        start + r.size ≤ a.toArena.capacity ∧ (a.request r).1 = some (a.toArena.data + start) ∧
        (a.request r).2.toArena = { a.toArena with offset := start + r.size } := by
  have hcases (b : Arena) : b.alloc r.size r.align = (none, b) ∨
      ∃ start, (0 < r.align → r.align ∣ start) ∧ b.offset ≤ start ∧ start + r.size ≤ b.capacity ∧
        b.alloc r.size r.align = (some (b.data + start), { b with offset := start + r.size }) := by
    unfold Arena.alloc
    dsimp only
    split_ifs with hnone hpad hsize
    · exact .inl rfl
    · exact .inl rfl
    · exact .inl rfl
    · exact .inr ⟨_, dvd_padding b.offset, Nat.le_add_right _ _, by omega, rfl⟩
  unfold request
  split
  · exact .inl ⟨rfl, rfl⟩
  cases a with
  | arena b =>
    rcases hcases b with heq | ⟨start, hdvd, hle, hfits, heq⟩
    · exact .inl (by simp [heq, toArena])
    · exact .inr ⟨start, hdvd, hle, hfits, by simp [heq, toArena]⟩
  | scratch b =>
    rcases hcases b.toArena with heq | ⟨start, hdvd, hle, hfits, heq⟩
    · exact .inl (by simp [ScratchArena.alloc, heq, toArena])
    · exact .inr ⟨start, hdvd, hle, hfits, by simp [ScratchArena.alloc, heq, toArena]⟩

lemma arenaStep_inv {s : AnyArena × List (Nat × Nat)}
    (hinv : ArenaInv base capacity s.1.toArena s.2) (op : ArenaOp) :
    ArenaInv base capacity (arenaStep s op).1.toArena (arenaStep s op).2 := by
  cases op with
  | request r =>
    show ArenaInv base capacity (s.1.request r).2.toArena (((s.1.request r).1.map _).toList ++ s.2)
    rcases s.1.request_cases r with ⟨hnone, heq⟩ | ⟨start, -, hle, hfits, hsome, heq⟩
    · rw [hnone, heq]
      exact hinv
    · rw [hsome, heq]
      exact hinv.request hle hfits
  | rewind mark =>
    obtain ⟨b, live⟩ := s
    cases b with
    | arena b => exact hinv
    | scratch b =>
      by_cases hmark : mark ≤ b.offset
      · have heq : b.rewind mark = { b with offset := mark } := if_pos hmark
        simp only [arenaStep, heq]
        exact hinv.rewind hmark
      · have heq : b.rewind mark = b := if_neg hmark
        have hall : live.filter (fun (q, n) => mark ≤ b.offset → q + n ≤ b.data + mark) = live :=
          List.filter_eq_self.2 fun _ _ => decide_eq_true fun h => absurd h hmark
        simp only [arenaStep, heq, hall]
        exact hinv

/-- A request that is granted gets a part of the buffer that is apart from all live regions, and at
an aligned address exactly if the buffer is at one. -/
theorem request_placed {first : AnyArena}
    (hfirst : first = .arena (.new base capacity) ∨ first = .scratch ⟨.new base capacity, 0⟩)
    {ops : List ArenaOp} {b : AnyArena} {live : List (Nat × Nat)}
    (hrun : ops.foldl arenaStep (first, []) = (b, live)) {r : Request} (halign : 0 < r.align)
    {p : Nat} (hp : (b.request r).1 = some p) : let a := Arena.new base capacity
    a.data ≤ p ∧ p + r.size ≤ a.data + a.capacity ∧
      (∀ q n, (q, n) ∈ live → q + n ≤ p ∨ p + r.size ≤ q) ∧ (r.align ∣ p ↔ r.align ∣ a.data) := by
  intro a
  have hstart : ArenaInv a.data a.capacity first.toArena [] := by
    have hzero : a.offset = 0 := by
      show (Arena.new base capacity).offset = 0
      unfold Arena.new
      split <;> rfl
    have hlow : a.offset ≤ a.capacity := by omega
    rcases hfirst with rfl | rfl <;> exact ⟨rfl, rfl, hlow, nofun⟩
  obtain ⟨hdata, hcapacity, hoffset, hlive⟩ : ArenaInv a.data a.capacity b.toArena live := by
    have hinv := List.foldlRecOn (motive := fun s => ArenaInv a.data a.capacity s.1.toArena s.2) ops
      arenaStep (b := (first, [])) hstart fun _ hs op _ => arenaStep_inv hs op
    rwa [hrun] at hinv
  rcases b.request_cases r with ⟨hnone, -⟩ | ⟨start, hdvd, hle, hfits, hsome, -⟩
  · cases hnone.symm.trans hp
  obtain rfl := Option.some.inj (hsome.symm.trans hp)
  rw [hdata]
  refine ⟨Nat.le_add_right _ _, by omega, fun q n hmem => .inl ?_, ?_⟩
  · have hend := (hlive q n hmem).2
    omega
  · exact (Nat.dvd_add_iff_left (hdvd halign)).symm

/-- A second region, after one that was given back. -/
theorem request_placed_second : (16 + 3 ≤ 32 ∨ 32 + 4 ≤ 16) ∧ (16 ∣ 32 ↔ 16 ∣ 16) := by
  obtain ⟨-, -, hapart, haligned⟩ := @request_placed 16 64 (.scratch ⟨.new 16 64, 0⟩) (.inr rfl)
    [.request (.alloc 3 1), .request (.alloc 5 8), .rewind 3] (.scratch ⟨⟨16, 64, 3⟩, 13⟩) [(16, 3)]
    (by decide) (.allocTyped 2 16 2) (by decide) 32 (by decide)
  exact ⟨hapart 16 3 List.mem_cons_self, haligned⟩

/-- A buffer at 16 gives an address that is not a multiple of 32. -/
theorem request_unaligned :
    ((AnyArena.arena (.new 16 64)).request (.alloc 8 32)).1 = some 16 ∧ 16 ∣ 16 ∧ ¬ 32 ∣ 16 := by
  decide

end Arandu.Stdlib
