import Arandu.Library.SlotTable

/-!
# Slabs

`stdlib/alloc/slab.aru`: a table with stable keys, whose vacant slots are linked through themselves.
-/

namespace Arandu.Stdlib

open List Library Function

variable {α : Type}

inductive Slot (α : Type) where
  | vacant (next : Nat)
  | occupied (val : α)
deriving DecidableEq, Repr

structure Slab (α : Type) where
  entries : List (Slot α)
  len : Nat
  next : Nat
deriving DecidableEq, Repr

namespace Slab

def new : Slab α := ⟨[], 0, 0⟩

/-- Fills the first vacant slot, or appends one when `next` is past the end. -/
def insert (self : Slab α) (value : α) : Nat × Slab α :=
  let key := self.next
  let total := self.entries.length
  if key < total then
    let nextFree := match self.entries[key]? with
      | some (.vacant f) => f
      | _ => key + 1
    (key, ⟨self.entries.set key (.occupied value), self.len + 1, nextFree⟩)
  else (key, ⟨self.entries ++ [.occupied value], self.len + 1, total + 1⟩)

/-- The value of an occupied slot. -/
def get (self : Slab α) (key : Nat) : Option α :=
  match self.entries[key]? with
  | some (.occupied val) => some val
  | _ => none

/-- Vacates the slot and puts it at the head of the vacant ones. -/
def remove (self : Slab α) (key : Nat) : Option α × Slab α :=
  match self.entries[key]? with
  | some (.occupied val) =>
    (some val, ⟨self.entries.set key (.vacant self.next), self.len - 1, key⟩)
  | _ => (none, self)

def clear (_ : Slab α) : Slab α := ⟨[], 0, 0⟩

inductive Op (α : Type) where
  | insert (value : α)
  | remove (key : Nat)
  | clear

def step (s : Slab α × (Nat → Option α)) : Op α → Slab α × (Nat → Option α)
  | .insert value => ((s.1.insert value).2, update s.2 (s.1.insert value).1 (some value))
  | .remove key => ((s.1.remove key).2, update s.2 key none)
  | .clear => (s.1.clear, fun _ => none)

/-! ## The free list -/

/-- The links from `k` on lead through `free` and end behind the table. -/
def Links (entries : List (Slot α)) : Nat → List Nat → Prop
  | k, [] => k = entries.length
  | k, i :: free => k = i ∧ ∃ f, entries[i]? = some (.vacant f) ∧ Links entries f free

def IsVacant (slot : Slot α) : Prop := ∃ f, slot = .vacant f

structure Inv (s : Slab α) (free : List Nat) : Prop where
  table : FreeList IsVacant s.entries free
  links : Links s.entries s.next free

variable {s : Slab α} {entries : List (Slot α)} {free : List Nat} {k i : Nat}

lemma links_set (hi : i ∉ free) (x : Slot α) (h : Links entries k free) :
    Links (entries.set i x) k free := by
  induction free generalizing k with
  | nil => exact h.trans length_set.symm
  | cons j free ih =>
    obtain ⟨rfl, f, hf, hlinks⟩ := h
    rw [mem_cons, not_or] at hi
    exact ⟨rfl, f, (getElem?_set_ne hi.1).trans hf, ih hi.2 hlinks⟩

lemma Inv.insert (h : Inv s free) (value : α) :
    s.get (s.insert value).1 = none ∧ (∃ free', Inv (s.insert value).2 free') ∧
      (s.insert value).2.get = update s.get (s.insert value).1 (some value) := by
  obtain ⟨htable, hlinks⟩ := h
  cases free with
  | nil =>
    have hnext : s.next = s.entries.length := hlinks
    have heq : s.insert value = (s.next, ⟨s.entries ++ [.occupied value], s.len + 1, s.next + 1⟩) :=
      by simp [Slab.insert, hnext]
    rw [heq]
    refine ⟨by simp [get, hnext], ⟨[], htable.append nofun, by simp [Links, hnext]⟩, ?_⟩
    funext key
    by_cases hkey : key = s.entries.length
    · simp [get, hnext, hkey]
    · have hold : (s.entries ++ [.occupied value])[key]? = s.entries[key]? := by grind
      simp [get, hnext, hkey, hold]
  | cons i free =>
    obtain ⟨hnext, f, hf, hlinks⟩ := hlinks
    have hlt := lt_of_getElem? hf
    have heq : s.insert value = (i, ⟨s.entries.set i (.occupied value), s.len + 1, f⟩) := by
      simp only [Slab.insert, hnext, hf, if_pos hlt]
    rw [heq]
    have hi := (nodup_cons.1 htable.nodup).1
    refine ⟨by simp [get, hf], ⟨free, htable.take nofun, links_set hi _ hlinks⟩, ?_⟩
    funext key
    by_cases hkey : key = i
    · simp [get, hkey, hlt]
    · simp [get, hkey, getElem?_set_ne (Ne.symm hkey)]

lemma Inv.remove (h : Inv s free) (key : Nat) :
    (s.remove key).1 = s.get key ∧ (∃ free', Inv (s.remove key).2 free') ∧
      (s.remove key).2.get = update s.get key none := by
  unfold Slab.remove
  split
  next val hval =>
    have hlt := lt_of_getElem? hval
    have hnew := h.table.release hval nofun ⟨s.next, rfl⟩
    have hkey := (nodup_cons.1 hnew.nodup).1
    refine ⟨by simp [get, hval], ⟨key :: free, hnew, rfl, s.next, ?_, links_set hkey _ h.links⟩, ?_⟩
    · exact getElem?_set_self hlt
    · funext j
      by_cases hj : j = key
      · simp [get, hj, hlt]
      · simp [get, hj, getElem?_set_ne (Ne.symm hj)]
  next hnone =>
    have hget : s.get key = none := by
      unfold get
      split
      next val hval => exact absurd hval (hnone val)
      · rfl
    exact ⟨hget.symm, ⟨free, h⟩, (hget ▸ update_eq_self key s.get).symm⟩

/-- A slab is a partial map with fresh keys, and its free list has no cycle and holds exactly the
vacant slots. -/
theorem slab_map (ops : List (Op α)) : let s := ops.foldl step (new, fun _ => none)
    s.1.get = s.2 ∧ (∀ key, (s.1.remove key).1 = s.2 key) ∧
      (∀ value, s.2 (s.1.insert value).1 = none) ∧
      ∃ free, free.Nodup ∧ Links s.1.entries s.1.next free ∧
        ∀ i, i ∈ free ↔ ∃ f, s.1.entries[i]? = some (.vacant f) := by
  intro s
  obtain ⟨hget, free, hinv⟩ : s.1.get = s.2 ∧ ∃ free, Inv s.1 free := by
    have hnew : Inv (new : Slab α) [] := ⟨.nil, rfl⟩
    refine foldlRecOn (motive := fun s => s.1.get = s.2 ∧ ∃ free, Inv s.1 free) ops step
      (b := (new, fun _ => none)) ⟨rfl, [], hnew⟩ fun s hs op _ => ?_
    obtain ⟨hget, free, hinv⟩ := hs
    cases op with
    | insert value =>
      obtain ⟨-, hinv', hget'⟩ := hinv.insert value
      exact ⟨hget'.trans (congrArg (update · _ _) hget), hinv'⟩
    | remove key =>
      obtain ⟨-, hinv', hget'⟩ := hinv.remove key
      exact ⟨hget'.trans (congrArg (update · _ _) hget), hinv'⟩
    | clear => exact ⟨rfl, [], hnew⟩
  refine ⟨hget, fun key => hget ▸ (hinv.remove key).1,
    fun value => hget ▸ (hinv.insert value).1, ?_⟩
  refine ⟨free, hinv.table.nodup, hinv.links, fun i => (hinv.table.mem_iff i).trans ?_⟩
  simp [IsVacant]

end Slab

end Arandu.Stdlib
