import Mathlib.Data.List.Count
import Mathlib.Data.Nat.Bitwise
import Arandu.Library.SlotTable

/-!
# Waker handles

`waker_runtime.rs`: wakers live in a table of recycled entries, and a handle packs the index of
the entry with its generation, which `destroy` bumps. The generation has 31 bits and starts over
at one, so the handles of one entry repeat from its occupant number `2 ^ 31` on, and not before.

Every call takes the table's lock for its whole effect on the table. A waker's state is shared by
reference (`Arc`); the model keeps these states in `cells` and stores their addresses.
-/

namespace Arandu.Runtime

open Arandu.Library List Option

/-! ## The table -/

structure WakerEntry where
  generation : Nat
  slot : Option Nat
deriving DecidableEq, Repr

structure WakerTable where
  entries : List WakerEntry
  /-- indices of vacant entries, the next one first -/
  free : List Nat
  /-- the flag of every waker ever created -/
  cells : List Bool
deriving DecidableEq, Repr

def WakerTable.empty : WakerTable := ⟨[], [], []⟩

def packWaker (index generation : Nat) : Int :=
  (((generation &&& 0x7FFFFFFF) <<< 32) ||| index : Nat)

def unpackWaker (id : Int) : Option (Nat × Nat) :=
  if id < 0 then none else some (id.toNat &&& 0xFFFFFFFF, id.toNat >>> 32)

def bumpWakerGeneration (generation : Nat) : Nat :=
  let next := (generation + 1) &&& 0x7FFFFFFF
  if next == 0 then 1 else next

variable (t : WakerTable) (id : Int)

/-- The cell a handle reaches. -/
def WakerTable.wakerState : Option Nat := do
  let (index, generation) ← unpackWaker id
  let entry ← t.entries[index]?
  if entry.generation ≠ generation then none else entry.slot

def WakerTable.create : WakerTable × Int :=
  match t.free with
  | index :: free =>
    let generation := (t.entries.getD index ⟨0, none⟩).generation
    (⟨t.entries.set index ⟨generation, some t.cells.length⟩, free, t.cells ++ [false]⟩,
      packWaker index generation)
  | [] =>
    if t.entries.length < 2 ^ 32 then
      (⟨t.entries ++ [⟨0, some t.cells.length⟩], [], t.cells ++ [false]⟩,
        packWaker t.entries.length 0)
    else (t, -1)

def WakerTable.wake : WakerTable :=
  match t.wakerState id with
  | some cell => { t with cells := t.cells.set cell true }
  | none => t

/-- `ar_rt_waker_wait`, once the flag is set or the time is over. -/
def WakerTable.wait : WakerTable × Int :=
  match t.wakerState id with
  | some cell =>
    if t.cells.getD cell false then ({ t with cells := t.cells.set cell false }, 1) else (t, 0)
  | none => (t, -1)

def WakerTable.destroy : WakerTable :=
  match unpackWaker id with
  | none => t
  | some (index, generation) =>
    match t.entries[index]? with
    | none => t
    | some entry =>
      if entry.generation ≠ generation || entry.slot.isNone then t
      else
        { t with
          entries := t.entries.set index ⟨bumpWakerGeneration entry.generation, none⟩
          free := if index < 2 ^ 32 then index :: t.free else t.free }

/-! ## Histories -/

inductive WakerCall where
  | create
  | wake (id : Int)
  | wait (id : Int)
  | destroy (id : Int)
deriving DecidableEq, Repr

/-- A table with the handles its creates returned so far, each with the waker made for it. -/
structure WakerRun where
  table : WakerTable
  created : List (Int × Nat)

def WakerRun.start : WakerRun := ⟨.empty, []⟩

def WakerRun.call (r : WakerRun) : WakerCall → WakerRun
  | .create =>
    let result := r.table.create
    ⟨result.1,
      if result.2 < 0 then r.created else r.created ++ [(result.2, r.table.cells.length)]⟩
  | .wake id => { r with table := r.table.wake id }
  | .wait id => { r with table := (r.table.wait id).1 }
  | .destroy id => { r with table := r.table.destroy id }

open WakerRun

def wakerRun (calls : List WakerCall) : WakerRun := calls.foldl call .start

/-- The handles that name entry number `index`, in the order of their creation. -/
def WakerRun.handlesOf (r : WakerRun) (index : Nat) : List Int :=
  (r.created.map Prod.fst).filter fun id => (unpackWaker id).map Prod.fst == some index

/-! ## Handles and generations -/

lemma and_mask (n k : Nat) : n &&& (2 ^ k - 1) = n % 2 ^ k :=
  Nat.and_two_pow_sub_one_eq_mod n k

lemma packWaker_eq {index generation : Nat} (hi : index < 2 ^ 32) (hg : generation < 2 ^ 31) :
    packWaker index generation = ((generation * 2 ^ 32 + index : Nat) : Int) := by
  have hmask : generation &&& 0x7FFFFFFF = generation := by
    rw [show (0x7FFFFFFF : Nat) = 2 ^ 31 - 1 from rfl, and_mask, Nat.mod_eq_of_lt hg]
  rw [packWaker, hmask, ← Nat.shiftLeft_add_eq_or_of_lt hi, Nat.shiftLeft_eq]

lemma unpackWaker_packWaker {index generation : Nat} (hi : index < 2 ^ 32)
    (hg : generation < 2 ^ 31) :
    unpackWaker (packWaker index generation) = some (index, generation) := by
  rw [packWaker_eq hi hg, unpackWaker, if_neg (by omega),
    show (0xFFFFFFFF : Nat) = 2 ^ 32 - 1 from rfl, and_mask]
  congr 2 <;> omega

lemma packWaker_nonneg (index generation : Nat) : ¬ packWaker index generation < 0 := by
  unfold packWaker
  omega

def occupantGeneration (k : Nat) : Nat := if k = 0 then 0 else (k - 1) % (2 ^ 31 - 1) + 1

lemma occupantGeneration_lt (k : Nat) : occupantGeneration k < 2 ^ 31 := by
  unfold occupantGeneration
  split <;> omega

lemma bumpWakerGeneration_occupantGeneration (k : Nat) :
    bumpWakerGeneration (occupantGeneration k) = occupantGeneration (k + 1) := by
  simp only [bumpWakerGeneration, show (0x7FFFFFFF : Nat) = 2 ^ 31 - 1 from rfl, and_mask,
    beq_iff_eq]
  unfold occupantGeneration
  rw [if_neg (Nat.succ_ne_zero k)]
  by_cases hk : k = 0
  · subst hk
    rfl
  · rw [if_neg hk]
    split <;> omega

/-- Generations start over at one after `2 ^ 31` occupants. -/
lemma occupantGeneration_of_lt {k : Nat} (hk : k < 2 ^ 31) : occupantGeneration k = k := by
  unfold occupantGeneration
  split <;> omega

lemma occupantGeneration_wrap : occupantGeneration (2 ^ 31) = occupantGeneration 1 := by
  rfl

/-! ## What a history leaves behind -/

/-- The table records, entry by entry, how often the entry has been occupied. -/
structure WakerRun.Inv (r : WakerRun) : Prop where
  length : r.table.entries.length ≤ 2 ^ 32
  free : FreeList (fun e : WakerEntry => e.slot = none) r.table.entries r.table.free
  handles : ∀ i, r.handlesOf i =
    (range (r.handlesOf i).length).map fun k => packWaker i (occupantGeneration k)
  unused : ∀ i, r.table.entries.length ≤ i → r.handlesOf i = []
  vacant : ∀ i e, r.table.entries[i]? = some e → e.slot = none →
    e.generation = occupantGeneration (r.handlesOf i).length
  occupied : ∀ i e c, r.table.entries[i]? = some e → e.slot = some c →
    (packWaker i e.generation, c) ∈ r.created ∧
      ∃ k, (r.handlesOf i).length = k + 1 ∧ e.generation = occupantGeneration k
  owner : ∀ p ∈ r.created, ∃ i k, i < r.table.entries.length ∧
    p.1 = packWaker i (occupantGeneration k)

lemma WakerRun.handlesOf_append (r : WakerRun) (table : WakerTable) (c : Nat) {i g : Nat}
    (hi : i < 2 ^ 32) (hg : g < 2 ^ 31) (j : Nat) :
    (mk table (r.created ++ [(packWaker i g, c)])).handlesOf j =
      r.handlesOf j ++ if j = i then [packWaker i g] else [] := by
  simp only [handlesOf]
  by_cases hj : j = i
  · simp [hj, unpackWaker_packWaker hi hg]
  · simp [unpackWaker_packWaker hi hg, Ne.symm hj, hj]

section Calls

variable {r : WakerRun}

lemma WakerRun.Inv.fill (h : r.Inv) {entries : List WakerEntry} {free : List Nat}
    {cells : List Bool} {i k c : Nat} (hlen : entries.length ≤ 2 ^ 32)
    (hle : r.table.entries.length ≤ entries.length) (hi : i < entries.length)
    (hfree : FreeList (fun e : WakerEntry => e.slot = none) entries free)
    (hk : (r.handlesOf i).length = k) (hself : entries[i]? = some ⟨occupantGeneration k, some c⟩)
    (hother : ∀ j e, j ≠ i → entries[j]? = some e → r.table.entries[j]? = some e) :
    (WakerRun.mk ⟨entries, free, cells⟩
      (r.created ++ [(packWaker i (occupantGeneration k), c)])).Inv := by
  have hhandles := r.handlesOf_append ⟨entries, free, cells⟩ c (lt_of_lt_of_le hi hlen)
    (occupantGeneration_lt k)
  refine ⟨hlen, hfree, fun j => ?_, fun j hj => ?_, fun j e he hnone => ?_,
    fun j e d he hsome => ?_, ?_⟩
  · rw [hhandles]
    by_cases hj : j = i
    · subst hj
      simp only [if_true, length_append, length_singleton, hk, range_succ,
        map_append, map_singleton]
      rw [h.handles j, hk]
    · simp only [if_neg hj, append_nil]
      exact h.handles j
  · have hij : j ≠ i := Nat.ne_of_gt (lt_of_lt_of_le hi hj)
    rw [hhandles, if_neg hij, append_nil]
    exact h.unused j (le_trans hle hj)
  · by_cases hj : j = i
    · subst hj
      rw [hself] at he
      cases he
      cases hnone
    · rw [hhandles, if_neg hj, append_nil]
      exact h.vacant j e (hother j e hj he) hnone
  · by_cases hj : j = i
    · subst hj
      rw [hself] at he
      cases he
      cases hsome
      refine ⟨mem_append_right _ mem_cons_self, k, ?_, rfl⟩
      rw [hhandles, if_pos rfl, length_append, hk]
      rfl
    · obtain ⟨hmem, hlast⟩ := h.occupied j e d (hother j e hj he) hsome
      refine ⟨mem_append_left _ hmem, ?_⟩
      rw [hhandles, if_neg hj, append_nil]
      exact hlast
  · intro p hp
    rcases mem_concat.1 hp with hp | rfl
    · obtain ⟨j, m, hj, heq⟩ := h.owner p hp
      exact ⟨j, m, lt_of_lt_of_le hj hle, heq⟩
    · exact ⟨i, k, hi, rfl⟩

lemma WakerRun.Inv.create (h : r.Inv) : (r.call .create).Inv := by
  cases hfree : r.table.free with
  | cons index free =>
    have hlist := hfree ▸ h.free
    obtain ⟨e, he, hnone⟩ := hlist.get
    have hlt := lt_of_getElem? he
    have hgen := h.vacant index e he hnone
    simp only [WakerRun.call, WakerTable.create, hfree, getD_eq_getElem?_getD, he, getD_some, hgen]
    refine h.fill (by simpa using h.length) (by simp) (by simpa using hlt)
      (hlist.take (by simp)) rfl (by simp [hlt]) ?_
    intro j e' hj he'
    rwa [getElem?_set_ne (Ne.symm hj)] at he'
  | nil =>
    by_cases hroom : r.table.entries.length < 2 ^ 32
    · simp only [WakerRun.call, WakerTable.create, hfree, hroom]
      have hcount : (r.handlesOf r.table.entries.length).length = 0 := by
        rw [h.unused _ le_rfl, length_nil]
      refine h.fill (k := 0) (by simp only [length_append, length_singleton]; omega)
        (by simp) (by simp)
        (hfree ▸ h.free.append (by simp)) hcount (by simp [occupantGeneration]) ?_
      intro j e' hj he'
      have hlt := lt_of_getElem? he'
      rw [length_append, length_singleton] at hlt
      rwa [getElem?_append_left (by omega)] at he'
    · have hfull : r.table.create = (r.table, -1) := by
        simp only [WakerTable.create, hfree, if_neg hroom]
      simp only [WakerRun.call, hfull]
      exact h

lemma WakerRun.Inv.destroy (h : r.Inv) (id : Int) : (r.call (.destroy id)).Inv := by
  simp only [call, WakerTable.destroy]
  split
  · exact h
  next index generation hid =>
    split
    · exact h
    next e he =>
      split
      · exact h
      next hlive =>
        simp only [Bool.or_eq_true, not_or, isNone_iff_eq_none] at hlive
        obtain ⟨c, hc⟩ := ne_none_iff_exists'.1 hlive.2
        obtain ⟨hlt, -⟩ := List.getElem?_eq_some_iff.1 he
        obtain ⟨-, k, hk, hgen⟩ := h.occupied index e c he hc
        rw [if_pos (lt_of_lt_of_le hlt h.length)]
        have hother : ∀ j e', j ≠ index →
            (r.table.entries.set index ⟨bumpWakerGeneration e.generation, none⟩)[j]? = some e' →
              r.table.entries[j]? = some e' := by
          intro j e' hj he'
          rwa [getElem?_set_ne (Ne.symm hj)] at he'
        refine ⟨by simpa using h.length, h.free.release he (by simp [hc]) rfl, h.handles,
          fun j hj => h.unused j (by simpa using hj), fun j e' he' hnone => ?_,
          fun j e' d he' hsome => ?_, fun p hp => ?_⟩
        · by_cases hj : j = index
          · subst hj
            obtain rfl : _ = e' := some.inj ((getElem?_set_self hlt).symm.trans he')
            show bumpWakerGeneration e.generation = occupantGeneration (r.handlesOf j).length
            rw [hgen, bumpWakerGeneration_occupantGeneration, hk]
          · exact h.vacant j e' (hother j e' hj he') hnone
        · by_cases hj : j = index
          · subst hj
            obtain rfl : _ = e' := some.inj ((getElem?_set_self hlt).symm.trans he')
            cases hsome
          · exact h.occupied j e' d (hother j e' hj he') hsome
        · obtain ⟨j, m, hj, heq⟩ := h.owner p hp
          exact ⟨j, m, by simpa using hj, heq⟩

lemma WakerRun.Inv.cells (h : r.Inv) (cells : List Bool) :
    (WakerRun.mk { r.table with cells := cells } r.created).Inv :=
  ⟨h.length, h.free, h.handles, h.unused, h.vacant, h.occupied, h.owner⟩

lemma WakerRun.Inv.call (h : r.Inv) (c : WakerCall) : (r.call c).Inv := by
  cases c with
  | create => exact h.create
  | destroy id => exact h.destroy id
  | wake id =>
    simp only [WakerRun.call, WakerTable.wake]
    split
    · exact h.cells _
    · exact h
  | wait id =>
    simp only [WakerRun.call, WakerTable.wait]
    split
    · split
      · exact h.cells _
      · exact h
    · exact h

end Calls

lemma wakerRun_inv (calls : List WakerCall) : (wakerRun calls).Inv := by
  have hstart : start.Inv :=
    ⟨Nat.zero_le _, .nil, fun _ => rfl, fun _ _ => rfl, nofun,
      nofun, nofun⟩
  suffices ∀ r : WakerRun, r.Inv → (calls.foldl call r).Inv from this _ hstart
  induction calls with
  | nil => exact fun _ h => h
  | cons c calls ih => exact fun r h => ih _ (h.call c)

/-! ## When handles repeat -/

/-- The handles of all creates that succeeded. -/
def WakerRun.handles (r : WakerRun) : List Int := r.created.map Prod.fst

section Repeat

variable {r : WakerRun}

lemma packWaker_inj {i k m : Nat} (hi : i < 2 ^ 32) (hk : k < 2 ^ 31) (hm : m < 2 ^ 31)
    (h : packWaker i (occupantGeneration k) = packWaker i (occupantGeneration m)) : k = m := by
  have hunpack := congrArg unpackWaker h
  rw [unpackWaker_packWaker hi (occupantGeneration_lt k),
    unpackWaker_packWaker hi (occupantGeneration_lt m), occupantGeneration_of_lt hk,
    occupantGeneration_of_lt hm] at hunpack
  simpa using hunpack

/-- The occupants of one entry have distinct handles as long as there are at most `2 ^ 31`. -/
lemma WakerRun.Inv.handlesOf_nodup (h : r.Inv) {i : Nat} (hi : i < 2 ^ 32) :
    (r.handlesOf i).Nodup ↔ (r.handlesOf i).length ≤ 2 ^ 31 := by
  constructor
  · intro hnodup
    by_contra hmany
    rw [h.handles i] at hnodup
    have hinj := inj_on_of_nodup_map hnodup (x := 1) (mem_range.2 (by omega))
      (y := 2 ^ 31) (mem_range.2 (by omega)) (by rw [occupantGeneration_wrap])
    exact absurd hinj (by decide)
  · intro hfew
    rw [h.handles i]
    refine Nodup.map_on (fun k hk m hm heq => ?_) nodup_range
    exact packWaker_inj hi (lt_of_lt_of_le (mem_range.1 hk) hfew)
      (lt_of_lt_of_le (mem_range.1 hm) hfew) heq

/-- Handles of different entries differ, so all are distinct when those of every entry are. -/
lemma WakerRun.Inv.handles_nodup (h : r.Inv) :
    r.handles.Nodup ↔ ∀ i, (r.handlesOf i).length ≤ 2 ^ 31 := by
  constructor
  · intro hnodup i
    by_cases hi : i < 2 ^ 32
    · exact (h.handlesOf_nodup hi).1 (hnodup.filter _)
    · rw [h.unused i (le_trans h.length (not_lt.1 hi))]
      exact Nat.zero_le _
  · intro hfew
    refine nodup_iff_count_le_one.2 fun id => ?_
    by_cases hid : id ∈ r.handles
    · obtain ⟨p, hp, rfl⟩ := mem_map.1 hid
      obtain ⟨i, k, hi, heq⟩ := h.owner p hp
      have hlt := lt_of_lt_of_le hi h.length
      have hkeep : ((unpackWaker p.1).map Prod.fst == some i) = true := by
        rw [heq, unpackWaker_packWaker hlt (occupantGeneration_lt k)]
        simp
      have hcount : (r.handlesOf i).count p.1 = r.handles.count p.1 := count_filter hkeep
      rw [← hcount]
      exact nodup_iff_count_le_one.1 ((h.handlesOf_nodup hlt).2 (hfew i)) p.1
    · rw [count_eq_zero_of_not_mem hid]
      exact Nat.zero_le 1

/-- As long as handles are distinct, a handle reaches the waker made for it or none. -/
lemma WakerRun.Inv.wakerState_eq (h : r.Inv) (hnodup : r.handles.Nodup) {p : Int × Nat}
    (hp : p ∈ r.created) {c : Nat} (hc : r.table.wakerState p.1 = some c) : c = p.2 := by
  obtain ⟨i, k, hi, heq⟩ := h.owner p hp
  have hunpack := unpackWaker_packWaker (lt_of_lt_of_le hi h.length) (occupantGeneration_lt k)
  simp only [WakerTable.wakerState, heq, hunpack, bind_eq_bind, bind_some,
    bind_eq_some_iff, ite_none_left_eq_some, not_not] at hc
  obtain ⟨e, he, hgen, hslot⟩ := hc
  obtain ⟨hmem, -⟩ := h.occupied i e c he hslot
  rw [hgen, ← heq] at hmem
  exact congrArg Prod.snd (inj_on_of_nodup_map hnodup hmem hp rfl)

end Repeat

/-- The handles returned by the creates of a history are distinct exactly when no entry of the
table has been occupied more than `2 ^ 31` times, and then none reaches a later waker. -/
theorem wakerRun_handles (calls : List WakerCall) :
    ((wakerRun calls).handles.Nodup ↔ ∀ i, ((wakerRun calls).handlesOf i).length ≤ 2 ^ 31) ∧
      ((∀ i, ((wakerRun calls).handlesOf i).length ≤ 2 ^ 31) → ∀ p ∈ (wakerRun calls).created, ∀ c,
          (wakerRun calls).table.wakerState p.1 = some c → c = p.2) := by
  have hinv := wakerRun_inv calls
  refine ⟨hinv.handles_nodup, fun hfew p hp c hc => ?_⟩
  exact hinv.wakerState_eq (hinv.handles_nodup.2 hfew) hp hc

/-- Create and destroy a waker, `n` times over. -/
def recycledCalls (n : Nat) : List WakerCall :=
  (range n).flatMap fun k => [.create, .destroy (packWaker 0 (occupantGeneration k))]

lemma wakerRun_recycledCalls (n : Nat) : (wakerRun (recycledCalls n)).table.entries =
        (if n = 0 then [] else [⟨occupantGeneration n, none⟩]) ∧
      (wakerRun (recycledCalls n)).table.free = (if n = 0 then [] else [0]) ∧
      (wakerRun (recycledCalls n)).handles =
        (range n).map fun k => packWaker 0 (occupantGeneration k) := by
  induction n with
  | zero => exact ⟨rfl, rfl, rfl⟩
  | succ n ih =>
    obtain ⟨hentries, hfree, hhandles⟩ := ih
    have hrun : wakerRun (recycledCalls (n + 1)) = ((wakerRun (recycledCalls n)).call .create).call
          (.destroy (packWaker 0 (occupantGeneration n))) := by
      simp [wakerRun, recycledCalls, range_succ]
    have hunpack : unpackWaker (packWaker 0 (occupantGeneration n)) =
        some (0, occupantGeneration n) :=
      unpackWaker_packWaker (by decide) (occupantGeneration_lt n)
    -- the entry is new in the first round and recycled in the others
    have hcreate : (wakerRun (recycledCalls n)).table.create =
        (⟨[⟨occupantGeneration n, some (wakerRun (recycledCalls n)).table.cells.length⟩], [],
          (wakerRun (recycledCalls n)).table.cells ++ [false]⟩,
          packWaker 0 (occupantGeneration n)) := by
      by_cases hn : n = 0
      · subst hn
        rfl
      · rw [if_neg hn] at hentries hfree
        simp [WakerTable.create, hentries, hfree]
    rw [hrun]
    simp only [call, hcreate, packWaker_nonneg, WakerTable.destroy, hunpack]
    simp only [handles] at hhandles ⊢
    simp [bumpWakerGeneration_occupantGeneration, hhandles, range_succ]

/-- One entry, occupied once too often, gives a handle out twice. -/
theorem wakerRun_handles_repeat : ¬ (wakerRun (recycledCalls (2 ^ 31 + 1))).handles.Nodup := by
  rw [(wakerRun_recycledCalls _).2.2]
  intro hnodup
  have hinj := inj_on_of_nodup_map hnodup (x := 1) (mem_range.2 (by omega))
    (y := 2 ^ 31) (mem_range.2 (by omega)) (by rw [occupantGeneration_wrap])
  exact absurd hinj (by decide)

end Arandu.Runtime
