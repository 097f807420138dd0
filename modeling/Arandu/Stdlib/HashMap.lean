import Arandu.Library.LinearProbing
import Arandu.Library.Schedule

/-!
# The hash map

`stdlib/alloc/hash_map.aru`: open addressing with linear probing. `insertEntry` takes the first
empty bucket from the home of the key, without Robin Hood displacement. `remove` shifts the
following entries back until it meets an empty bucket or an entry at home, which is not enough:
an entry behind that one may have been probed across the bucket that is left empty.
-/

namespace Arandu.Stdlib

open Arandu.Library List

/-! ## Keys, entries and maps -/

/-- `Hash`, with what its users promise: equality is an equivalence and hashes respect it. -/
class HashKey (K : Type) where
  hashKey : K → Nat
  eq : K → K → Bool
  eq_refl : ∀ k, eq k k = true
  eq_symm : ∀ k k', eq k k' = true → eq k' k = true
  eq_trans : ∀ k k' k'', eq k k' = true → eq k' k'' = true → eq k k'' = true
  hashKey_eq : ∀ k k', eq k k' = true → hashKey k = hashKey k'

export HashKey (hashKey)

structure Entry (K V : Type) where
  hash : Nat
  key : K
  value : V
  distance : Nat
deriving DecidableEq, Repr

structure HashMap (K V : Type) where
  buckets : List (Option (Entry K V))
  len : Nat
  mask : Nat
deriving DecidableEq, Repr

def maxBuckets : Nat := 1073741824

namespace HashMap

variable {K V : Type}

def new : HashMap K V := ⟨[], 0, 0⟩

/-- The loop of `withCapacity` that doubles the number of buckets. -/
def roundUp (minCap : Nat) : Nat → Nat → Option Nat
  | 0, _ => none
  | fuel + 1, cap =>
    if cap < minCap then
      if maxBuckets / 2 < cap then none else roundUp minCap fuel (cap * 2)
    else some cap

/-- Without a result the process is aborted. -/
def withCapacity (minCap : Nat) : Option (HashMap K V) :=
  if maxBuckets < minCap then none
  else
    match roundUp minCap 32 8 with
    | none => none
    | some cap => some ⟨replicate cap none, 0, cap - 1⟩

def clear (m : HashMap K V) : HashMap K V :=
  { m with buckets := m.buckets.map fun _ => none, len := 0 }

variable [HashKey K] (m : HashMap K V)

/-- The entry holds the key. -/
def Entry.matches (e : Entry K V) (h : Nat) (key : K) : Bool := e.hash == h && HashKey.eq e.key key

/-- The loop that `contains`, `get`, `getRef` and `remove` share: the bucket of the key. -/
def find (h : Nat) (key : K) : Nat → Nat → Option (Nat × Entry K V)
  | 0, _ => none
  | fuel + 1, idx =>
    match m.buckets[idx]? with
    | some (some e) =>
      if Entry.matches e h key then some (idx, e) else find h key fuel ((idx + 1) &&& m.mask)
    | _ => none

variable (key : K)

/-- The search from the home of the key. -/
def findKey : Option (Nat × Entry K V) :=
  if m.buckets.length = 0 then none
  else m.find (hashKey key) key m.buckets.length (hashKey key &&& m.mask)

def contains : Bool := (m.findKey key).isSome

def get : Option V := (m.findKey key).map fun p => p.2.value

/-- `getRef`, up to the reference. -/
def getRef : Option V := (m.findKey key).map fun p => p.2.value

/-- What the loop of `insertEntry` does to the buckets: it fills an empty one or replaces an entry
with the same key. -/
def place (h : Nat) (key : K) (val : V) :
    Nat → Nat → Nat → HashMap K V × Option V
  | 0, _, _ => (m, none)
  | fuel + 1, idx, dist =>
    match m.buckets[idx]? with
    | some none =>
      ({ m with buckets := m.buckets.set idx (some ⟨h, key, val, dist⟩), len := m.len + 1 }, none)
    | some (some e) =>
      if Entry.matches e h key then
        ({ m with buckets := m.buckets.set idx (some ⟨h, key, val, dist⟩) }, some e.value)
      else place h key val fuel ((idx + 1) &&& m.mask) (dist + 1)
    | none => place h key val fuel ((idx + 1) &&& m.mask) (dist + 1)

/-- `resize`, with the function that inserts the old entries. -/
def resize (insertEntry : HashMap K V → K → V → Nat → Option (HashMap K V × Option V))
    (m : HashMap K V) : Option (HashMap K V) :=
  let oldCap := m.buckets.length
  if 0 < oldCap ∧ maxBuckets ≤ oldCap then none
  else
    let newCap := if 0 < oldCap then oldCap * 2 else 8
    m.buckets.foldlM (fun m slot =>
        match slot with
        | some e => (insertEntry m e.key e.value e.hash).map Prod.fst
        | none => some m)
      (⟨replicate newCap none, 0, newCap - 1⟩ : HashMap K V)

/-- It grows the table first if the load asks for it, which inserts the old entries
by the same function; without a result the process is aborted. -/
def insertEntry : Nat → HashMap K V → K → V → Nat → Option (HashMap K V × Option V)
  | 0, _, _, _, _ => none
  | depth + 1, m, key, val, h =>
    let cap := m.buckets.length
    let grown :=
      if cap = 0 ∨ cap - cap / 4 ≤ m.len then resize (insertEntry depth) m else some m
    match grown with
    | none => none
    | some m => some (m.place h key val m.buckets.length (h &&& m.mask) 0)

/-- The insertions of a growing table never grow it again. -/
def insert (val : V) : Option (HashMap K V × Option V) :=
  insertEntry 2 m key val (hashKey key)

/-- The loop of `remove` that shifts entries back; without a result the process is aborted. -/
def shiftBack (mask : Nat) :
    Nat → List (Option (Entry K V)) → Nat → Nat → Option (List (Option (Entry K V)))
  | 0, _, _, _ => none
  | fuel + 1, buckets, curr, next =>
    match buckets[next]? with
    | some (some e) =>
      if e.distance = 0 then some (buckets.set curr none)
      else
        shiftBack mask fuel
          ((buckets.set next none).set curr (some { e with distance := e.distance - 1 })) next
          ((next + 1) &&& mask)
    | _ => some (buckets.set curr none)

def remove : Option (HashMap K V × Option V) :=
  match m.findKey key with
  | none => some (m, none)
  | some (idx, e) =>
    match shiftBack m.mask m.buckets.length (m.buckets.set idx none) idx ((idx + 1) &&& m.mask) with
    | none => none
    | some buckets => some ({ m with buckets := buckets, len := m.len - 1 }, some e.value)

end HashMap

/-! ## Finite maps -/

/-- A finite map as the list of its bindings. -/
abbrev Bindings (K V : Type) := List (K × V)

namespace Bindings

variable {K V : Type} [HashKey K] (b : Bindings K V)

def lookup (k : K) : Option V :=
  (b.find? fun p => HashKey.eq p.1 k).map Prod.snd

def erase (k : K) : Bindings K V := b.filter fun p => !HashKey.eq p.1 k

def insert (k : K) (v : V) : Bindings K V := (k, v) :: b.erase k

/-- No key is bound twice. -/
def Distinct : Prop := b.Pairwise fun p q => HashKey.eq p.1 q.1 = false

variable {b : Bindings K V} {k k' : K} {v : V}

lemma eq_comm (k k' : K) : HashKey.eq k k' = HashKey.eq k' k := by
  rw [Bool.eq_iff_iff]
  exact ⟨HashKey.eq_symm k k', HashKey.eq_symm k' k⟩

lemma lookup_cons (p : K × V) (b : Bindings K V) (k : K) :
    lookup (p :: b) k = if HashKey.eq p.1 k then some p.2 else lookup b k := by
  unfold lookup
  split <;> simp_all

lemma erase_cons (p : K × V) (b : Bindings K V) (k : K) :
    erase (p :: b) k = if HashKey.eq p.1 k then erase b k else p :: erase b k := by
  unfold erase
  split <;> simp_all

lemma lookup_erase (b : Bindings K V) (k k' : K) :
    lookup (b.erase k) k' = if HashKey.eq k k' then none else lookup b k' := by
  induction b with
  | nil => exact (ite_self none).symm
  | cons p b ih =>
    rw [erase_cons, lookup_cons]
    by_cases hp : HashKey.eq p.1 k = true
    · rw [if_pos hp, ih]
      -- a binding of the erased key is found by no other key
      by_cases hk : HashKey.eq k k' = true
      · rw [if_pos hk, if_pos hk]
      · have hpk : ¬ HashKey.eq p.1 k' = true := fun h =>
          hk (HashKey.eq_trans k p.1 k' (HashKey.eq_symm p.1 k hp) h)
        rw [if_neg hk, if_neg hk, if_neg hpk]
    · rw [if_neg hp, lookup_cons, ih]
      by_cases hpk : HashKey.eq p.1 k' = true
      · have hk : ¬ HashKey.eq k k' = true := fun h =>
          hp (HashKey.eq_trans p.1 k' k hpk (HashKey.eq_symm k k' h))
        rw [if_neg hk, if_neg hk]
      · rw [if_neg hpk, if_neg hpk]

lemma lookup_insert (b : Bindings K V) (k : K) (v : V) (k' : K) :
    lookup (b.insert k v) k' = if HashKey.eq k k' then some v else lookup b k' := by
  rw [insert, lookup_cons, lookup_erase]
  split <;> rfl

lemma Distinct.erase (hd : b.Distinct) (k : K) : Distinct (b.erase k) := Pairwise.filter _ hd

lemma Distinct.insert (hd : b.Distinct) (k : K) (v : V) : Distinct (b.insert k v) := by
  refine pairwise_cons.2 ⟨fun p hp => ?_, hd.erase k⟩
  have := (mem_filter.1 hp).2
  rw [eq_comm]
  simpa using this

lemma length_erase (hd : b.Distinct) (k : K) :
    (b.erase k).length + (if (lookup b k).isSome then 1 else 0) = b.length := by
  induction b with
  | nil => rfl
  | cons p b ih =>
    obtain ⟨hp, hb⟩ := pairwise_cons.1 hd
    rw [erase_cons, lookup_cons]
    by_cases hk : HashKey.eq p.1 k = true
    · -- no other binding has that key
      have hrest : Bindings.erase b k = b := by
        refine filter_eq_self.2 fun q hq => ?_
        by_contra hqk
        have hqk : HashKey.eq q.1 k = true := by simpa using hqk
        have := HashKey.eq_trans p.1 k q.1 hk (HashKey.eq_symm q.1 k hqk)
        rw [hp q hq] at this
        cases this
      rw [if_pos hk, if_pos hk, hrest]
      rfl
    · rw [if_neg hk, if_neg hk, length_cons, length_cons, ← ih hb]
      omega

lemma erase_eq_self (h : b.lookup k = none) : b.erase k = b := by
  induction b with
  | nil => rfl
  | cons p b ih =>
    rw [lookup_cons] at h
    rw [erase_cons]
    split at h
    · cases h
    next hp => rw [if_neg hp, ih h]

lemma length_insert (hd : b.Distinct) (k : K) (v : V) :
    (b.insert k v).length + (if (lookup b k).isSome then 1 else 0) = b.length + 1 := by
  have := length_erase hd k
  unfold Bindings.insert
  rw [length_cons]
  omega

end Bindings

end Arandu.Stdlib
