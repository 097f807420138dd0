import Mathlib.Algebra.Group.Nat.Defs
import Mathlib.Data.List.Basic
import Arandu.Library.Schedule

/-!
# Atomic reference counting

`stdlib/alloc/arc.aru`: one allocation with a strong and a weak counter. All strong handles
together hold one implicit weak reference. `isUnique` replaces a weak count of one by a sentinel
while it looks at the strong counter, and `getMut` hands out an exclusive reference if it succeeds.

Every call is a sequence of atomic steps (`ArcOp`). A call borrows or consumes the handle that it
is called on: calls on one handle overlap only if all of them borrow it shared.
-/

namespace Arandu.Stdlib

open Arandu.Library List Option

/-! ## Counters, handles and calls -/

def countLimit : Nat := 2147483646

def countLock : Nat := 2147483647

/-- The targets have machine words of 32 or 64 bits. -/
inductive WordSize where
  | bits32
  | bits64
deriving DecidableEq, Repr

def WordSize.bits : WordSize → Nat
  | .bits32 => 32
  | .bits64 => 64

variable (word : WordSize)

/-- `fetchSub(1)` on a machine word. -/
def WordSize.decrement (count : Nat) : Nat :=
  (count + 2 ^ word.bits - 1) % 2 ^ word.bits

inductive ArcHandle where
  | strong (n : Nat)
  | weak (n : Nat)
deriving DecidableEq, Repr

/-- The next atomic step of a call. A count that a retain loop has seen is its argument. -/
inductive ArcOp where
  /-- `clone` -/
  | retainStrong (n : Nat) (seen : Option Nat)
  /-- `downgrade`, or `clone` of a weak handle -/
  | retainWeak (h : ArcHandle) (seen : Option Nat)
  | upgrade (n : Nat) (seen : Option Nat)
  /-- `isUnique`, or `getMut` if it is exclusive: about to take the lock -/
  | lockWeak (n : Nat) (exclusive : Bool)
  /-- about to read the strong counter -/
  | readStrong (n : Nat) (exclusive : Bool)
  /-- about to release the lock -/
  | unlockWeak (n : Nat) (exclusive unique : Bool)
  /-- `getMut` has returned a reference that is still in use -/
  | borrowed (n : Nat)
  /-- `destroy` of a strong handle: about to decrement -/
  | dropStrong (n : Nat)
  | tryUnwrap (n : Nat)
  /-- the last strong handle is gone: about to move the payload out -/
  | takePayload
  /-- about to give up the implicit weak reference -/
  | dropImplicit
  /-- `destroy` of a weak handle: about to decrement -/
  | dropWeak (n : Nat)
  | freeBlock
  | returned
deriving DecidableEq, Repr

/-- The handle that the call borrows or consumes. -/
def ArcOp.handle : ArcOp → Option ArcHandle
  | .retainStrong n _ | .lockWeak n _ | .readStrong n _ | .unlockWeak n _ _ | .borrowed n
  | .dropStrong n | .tryUnwrap n => some (.strong n)
  | .retainWeak h _ => some h
  | .upgrade n _ | .dropWeak n => some (.weak n)
  | .takePayload | .dropImplicit | .freeBlock | .returned => none

/-- The call has its handle to itself. -/
def ArcOp.exclusive : ArcOp → Bool
  | .lockWeak _ e | .readStrong _ e | .unlockWeak _ e _ => e
  | .borrowed _ | .dropStrong _ | .tryUnwrap _ | .dropWeak _ => true
  | _ => false

/-- One allocation: its counters, the handles to it, the calls in progress, and how often the
payload was moved out, the block freed, and the block touched after that. -/
structure ArcState where
  strong : Nat
  weak : Nat
  strongs : List Nat
  weaks : List Nat
  nextHandle : Nat
  ops : List ArcOp
  taken : Nat
  freed : Nat
  late : Nat
deriving DecidableEq, Repr

def ArcState.new : ArcState := ⟨1, 1, [0], [], 1, [], 0, 0, 0⟩

variable (s : ArcState)

/-- The handle exists. -/
def ArcState.Live : ArcHandle → Prop
  | .strong n => n ∈ s.strongs
  | .weak n => n ∈ s.weaks

instance (s : ArcState) (h : ArcHandle) : Decidable (s.Live h) :=
  match h with
  | .strong n => inferInstanceAs (Decidable (n ∈ s.strongs))
  | .weak n => inferInstanceAs (Decidable (n ∈ s.weaks))

/-! ## Steps -/

/-- A compare-and-exchange of the weak kind may fail although the counter has the expected value. -/
def casSucceeds (counter expected : Nat) (spurious : Bool) : Bool :=
  counter == expected && !spurious

/-- One atomic step of a call: what is left of it and the state. A call that aborts the process
has no step. -/
def ArcState.advance (op : ArcOp) (spurious : Bool) : Option (ArcOp × ArcState) :=
  match op with
  | .retainStrong n none => some (.retainStrong n (some s.strong), s)
  | .retainStrong n (some count) =>
    if count = 0 ∨ countLimit ≤ count then none
    else if casSucceeds s.strong count spurious then
      some (.returned, { s with
        strong := count + 1, strongs := s.nextHandle :: s.strongs, nextHandle := s.nextHandle + 1 })
    else some (.retainStrong n (some s.strong), s)
  | .retainWeak h none => some (.retainWeak h (some s.weak), s)
  | .retainWeak h (some count) =>
    if count = countLock then some (.retainWeak h (some s.weak), s)
    else if count = 0 ∨ countLimit ≤ count then none
    else if casSucceeds s.weak count spurious then
      some (.returned, { s with
        weak := count + 1, weaks := s.nextHandle :: s.weaks, nextHandle := s.nextHandle + 1 })
    else some (.retainWeak h (some s.weak), s)
  | .upgrade n none => some (.upgrade n (some s.strong), s)
  | .upgrade n (some count) =>
    if count = 0 then some (.returned, s)
    else if countLimit ≤ count then none
    else if casSucceeds s.strong count spurious then
      some (.returned, { s with
        strong := count + 1, strongs := s.nextHandle :: s.strongs, nextHandle := s.nextHandle + 1 })
    else some (.upgrade n (some s.strong), s)
  | .lockWeak n exclusive =>
    if s.weak = 1 then some (.readStrong n exclusive, { s with weak := countLock })
    else some (.returned, s)
  | .readStrong n exclusive => some (.unlockWeak n exclusive (s.strong == 1), s)
  | .unlockWeak n exclusive unique =>
    some (if exclusive && unique then .borrowed n else .returned, { s with weak := 1 })
  | .borrowed _ => some (.returned, s)
  | .dropStrong n =>
    some (if s.strong = 1 then .takePayload else .returned,
      { s with strong := word.decrement s.strong, strongs := s.strongs.erase n })
  | .tryUnwrap n =>
    if s.strong = 1 then
      some (.takePayload, { s with strong := 0, strongs := s.strongs.erase n })
    else some (.returned, s)
  | .takePayload => some (.dropImplicit, { s with taken := s.taken + 1 })
  | .dropImplicit =>
    some (if s.weak = 1 then .freeBlock else .returned,
      { s with weak := word.decrement s.weak })
  | .dropWeak n =>
    some (if s.weak = 1 then .freeBlock else .returned,
      { s with weak := word.decrement s.weak, weaks := s.weaks.erase n })
  | .freeBlock => some (.returned, { s with freed := s.freed + 1 })
  | .returned => none

/-- The public operations. -/
inductive ArcCall where
  | clone (n : Nat)
  | downgrade (n : Nat)
  | weakClone (n : Nat)
  | upgrade (n : Nat)
  | isUnique (n : Nat)
  | getMut (n : Nat)
  | tryUnwrap (n : Nat)
  | destroy (n : Nat)
  | weakDestroy (n : Nat)
deriving DecidableEq, Repr

/-- The first step of an operation. -/
def ArcCall.op : ArcCall → ArcOp
  | .clone n => .retainStrong n none
  | .downgrade n => .retainWeak (.strong n) none
  | .weakClone n => .retainWeak (.weak n) none
  | .upgrade n => .upgrade n none
  | .isUnique n => .lockWeak n false
  | .getMut n => .lockWeak n true
  | .tryUnwrap n => .tryUnwrap n
  | .destroy n => .dropStrong n
  | .weakDestroy n => .dropWeak n

/-- Calls on one handle overlap only if both borrow it shared. -/
def ArcOp.compatible (op op' : ArcOp) : Bool :=
  op.handle.isNone || op.handle != op'.handle || (!op.exclusive && !op'.exclusive)

/-- Who moves: an operation is called on a live handle, or a call in progress takes a step. -/
inductive ArcMove where
  | call (c : ArcCall)
  | advance (k : Nat) (spurious : Bool)
deriving DecidableEq, Repr

/-- The step touches the block. -/
def ArcOp.touches : ArcOp → Bool
  | .borrowed _ | .returned => false
  | _ => true

def ArcState.step : ArcMove → Option ArcState
  | .call c =>
    if (∀ h ∈ c.op.handle, s.Live h) ∧ s.ops.all c.op.compatible then
      some { s with ops := s.ops ++ [c.op] }
    else none
  | .advance k spurious =>
    match s.ops[k]? with
    | none => none
    | some op =>
      match s.advance word op spurious with
      | none => none
      | some (op', s') =>
        some { s' with
          ops := s.ops.set k op'
          late := if op.touches && s.freed != 0 then s'.late + 1 else s'.late }

/-! ## What the counters count -/

/-- The call holds the implicit weak reference, the last strong handle being gone. -/
def ArcOp.pending : ArcOp → Bool
  | .takePayload | .dropImplicit => true
  | _ => false

/-- The call has replaced the weak count by the sentinel. -/
def ArcOp.locks : ArcOp → Bool
  | .readStrong _ _ | .unlockWeak _ _ _ => true
  | _ => false

def ArcOp.taking : ArcOp → Bool
  | .takePayload => true
  | _ => false

def ArcOp.freeing : ArcOp → Bool
  | .freeBlock => true
  | _ => false

/-- The counters against the number of strong and weak handles, and of calls that hold the implicit
weak reference, have the weak counter locked, are about to take the payload or to free the block. -/
structure ArcCounts (S W P L T F strong weak taken freed : Nat) : Prop where
  strong_eq : strong = S
  strong_le : S ≤ countLimit
  pending : P = 0 ∨ S = 0 ∧ P = 1
  taking_le : T ≤ P
  weak_eq : L = 0 ∧ (S = 0 ∧ weak = W + P ∨ S ≠ 0 ∧ weak = W + 1) ∨
    L = 1 ∧ weak = countLock ∧ W = 0 ∧ S ≠ 0
  weak_le : W ≤ countLimit ∧ (S = 0 ∧ P = 0 ∨ W + 1 ≤ countLimit)
  taken_eq : S = 0 ∧ taken + T = 1 ∨ S ≠ 0 ∧ taken = 0 ∧ T = 0
  freed_eq : S = 0 ∧ W = 0 ∧ P = 0 ∧ freed + F = 1 ∨ ¬ (S = 0 ∧ W = 0 ∧ P = 0) ∧ freed = 0 ∧ F = 0

open ArcOp

def ArcState.Counted : Prop :=
  ArcCounts s.strongs.length s.weaks.length (s.ops.countP pending) (s.ops.countP locks)
    (s.ops.countP taking) (s.ops.countP freeing) s.strong s.weak s.taken s.freed

variable {spurious : Bool}

section Counts

variable {word : WordSize} {s s' : ArcState} {op op' : ArcOp} {pre post : List ArcOp}

lemma WordSize.decrement_eq (word : WordSize) {count : Nat} (hpos : 0 < count)
    (hlimit : count ≤ countLock) : word.decrement count = count - 1 := by
  have hword : countLock < 2 ^ word.bits := by
    cases word with
    | bits32 => decide
    | bits64 => decide
  have hsum : count + 2 ^ word.bits - 1 = count - 1 + 2 ^ word.bits := by omega
  rw [WordSize.decrement, hsum, Nat.add_mod_right, Nat.mod_eq_of_lt (by omega)]

lemma casSucceeds_iff {counter expected : Nat} :
    casSucceeds counter expected spurious = true ↔ counter = expected ∧ spurious = false := by
  simp [casSucceeds]

namespace ArcCounts

variable {S W P L T F strong weak taken freed : Nat}

section

variable (h : ArcCounts S W P L T F strong weak taken freed)
include h

lemma addStrong (hpos : strong ≠ 0) (hlt : strong < countLimit) :
    ArcCounts (S + 1) W P L T F (strong + 1) weak taken freed := by
  cases h
  constructor <;> omega

lemma addWeak (hlock : weak ≠ countLock) (hpos : weak ≠ 0) (hlt : weak < countLimit) :
    ArcCounts S (W + 1) P L T F strong (weak + 1) taken freed := by
  cases h
  constructor <;> omega

lemma lock (hstrong : S ≠ 0) (hweak : weak = 1) :
    ArcCounts S W P (L + 1) T F strong countLock taken freed := by
  have hlock : countLock = 2147483647 := rfl
  cases h
  constructor <;> omega

end

lemma unlock (h : ArcCounts S W P (L + 1) T F strong weak taken freed) :
    ArcCounts S W P L T F strong 1 taken freed := by
  cases h
  constructor <;> omega

/-- The last strong handle leaves the implicit weak reference to the call that drops it. -/
lemma dropLastStrong (h : ArcCounts S W P L T F strong weak taken freed) (hone : strong = 1)
    (hunlocked : L = 0) : ArcCounts 0 W (P + 1) L (T + 1) F 0 weak taken freed := by
  cases h
  constructor <;> omega

lemma dropStrong (h : ArcCounts (S + 1) W P L T F strong weak taken freed) (hmany : strong ≠ 1) :
    ArcCounts S W P L T F (strong - 1) weak taken freed := by
  cases h
  constructor <;> omega

lemma take (h : ArcCounts S W P L (T + 1) F strong weak taken freed) :
    ArcCounts S W P L T F strong weak (taken + 1) freed := by
  cases h
  constructor <;> omega

section

variable (h : ArcCounts S W (P + 1) L T F strong weak taken freed) (htaking : T ≤ P)

include h htaking

lemma dropImplicit (hweak : weak ≠ 1) : ArcCounts S W P L T F strong (weak - 1) taken freed := by
  cases h
  constructor <;> omega

lemma dropLastImplicit (hweak : weak = 1) :
    ArcCounts S W P L T (F + 1) strong (weak - 1) taken freed := by
  cases h
  constructor <;> omega

end

section

variable (h : ArcCounts S (W + 1) P L T F strong weak taken freed)

include h

lemma dropWeak (hweak : weak ≠ 1) : ArcCounts S W P L T F strong (weak - 1) taken freed := by
  cases h
  constructor <;> omega

/-- The last weak handle of an allocation without payload frees the block. -/
lemma dropLastWeak (hweak : weak = 1) :
    ArcCounts S W P L T (F + 1) strong (weak - 1) taken freed := by
  cases h
  constructor <;> omega

end

lemma free (h : ArcCounts S W P L T (F + 1) strong weak taken freed) :
    ArcCounts S W P L T F strong weak taken (freed + 1) := by
  cases h
  constructor <;> omega

lemma weak_le_lock (h : ArcCounts S W P L T F strong weak taken freed) : weak ≤ countLock := by
  have hlimits : countLimit = 2147483646 ∧ countLock = 2147483647 := ⟨rfl, rfl⟩
  cases h
  omega

end ArcCounts

end Counts

/-! ## Handles and calls -/

/-- The counters are right, calls respect the borrows, and a reference from `getMut` is the only
handle. -/
structure ArcInv (s : ArcState) : Prop where
  counted : s.Counted
  strongs : s.strongs.Nodup
  weaks : s.weaks.Nodup
  fresh : ∀ n, n ∈ s.strongs ∨ n ∈ s.weaks → n < s.nextHandle
  live : ∀ op ∈ s.ops, ∀ h, op.handle = some h → s.Live h
  apart : s.ops.Pairwise fun op op' => op.compatible op' = true
  unique : ∀ op ∈ s.ops, ∀ n, op = .unlockWeak n true true ∨ op = .borrowed n →
    s.strongs = [n] ∧ s.weaks = []
  late : s.late = 0

/-- What an atomic step may do to the handles: create one, or remove the one that the call has
consumed. -/
structure HandleStep (s s' : ArcState) (op op' : ArcOp) : Prop where
  strongs : s'.strongs.Nodup
  weaks : s'.weaks.Nodup
  fresh : ∀ n, n ∈ s'.strongs ∨ n ∈ s'.weaks → n < s'.nextHandle
  kept : ∀ h, s.Live h → (op.exclusive = true → op.handle ≠ some h) → s'.Live h
  handle : ∀ h, op'.handle = some h →
    op.handle = some h ∧ (op'.exclusive = true → op.exclusive = true) ∧ s'.Live h
  changed : s'.strongs = s.strongs ∧ s'.weaks = s.weaks ∨ op.handle.isSome = true
  unique : ∀ n, op' = .unlockWeak n true true ∨ op' = .borrowed n → s'.strongs = [n] ∧ s'.weaks = []

variable {word : WordSize} {n : Nat}

section Handles

variable {s s' : ArcState} {op op' : ArcOp} {pre post : List ArcOp} {h : ArcHandle}

open ArcState

lemma ArcState.step_advance {k : Nat} (hstep : s.step word (.advance k spurious) = some s') :
    ∃ pre op post op' s₁, s.ops = pre ++ op :: post ∧ s.advance word op spurious = some (op', s₁) ∧
      s' = { s₁ with
        ops := pre ++ op' :: post
        late := if op.touches && s.freed != 0 then s₁.late + 1 else s₁.late } := by
  simp only [step] at hstep
  split at hstep
  · cases hstep
  next op hop =>
    split at hstep
    · cases hstep
    next op' s₁ hadvance =>
      obtain ⟨hk, rfl⟩ := List.getElem?_eq_some_iff.1 hop
      obtain ⟨pre, post, hops, -, hset⟩ := @exists_of_set _ k op' s.ops hk
      rw [hset] at hstep
      exact ⟨pre, _, post, op', s₁, hops, hadvance, (some.inj hstep).symm⟩

lemma ArcOp.compatible_iff : op.compatible op' = true ↔
      ∀ h, op.handle = some h → op'.handle = some h → op.exclusive = false ∧
      op'.exclusive = false := by
  unfold compatible
  cases hop : op.handle with
  | none => simp
  | some h =>
    simp only [isNone_some, Bool.false_or, Bool.or_eq_true, bne_iff_ne,
      Bool.and_eq_true, Bool.not_eq_true', some.injEq, forall_eq']
    constructor
    · rintro (hne | hshared) heq
      · exact absurd heq.symm hne
      · exact hshared
    · intro hshared
      by_cases heq : op'.handle = some h
      · exact .inr (hshared heq)
      · exact .inl (Ne.symm heq)

lemma ArcOp.compatible_symm (h : op.compatible op' = true) : op'.compatible op = true := by
  rw [compatible_iff] at h ⊢
  intro x hx hx'
  exact (h x hx' hx).symm

lemma ArcInv.live_of (hi : ArcInv s) (hops : s.ops = pre ++ op :: post)
    (hhandle : op.handle = some h) : s.Live h :=
  hi.live op (by simp [hops]) h hhandle

lemma ArcInv.compatible (hi : ArcInv s) (hops : s.ops = pre ++ op :: post) {x : ArcOp}
    (hx : x ∈ pre ++ post) : op.compatible x = true := by
  have hapart := hi.apart
  rw [hops, pairwise_append, pairwise_cons] at hapart
  rcases mem_append.1 hx with hx | hx
  · exact compatible_symm (hapart.2.2 x hx op mem_cons_self)
  · exact hapart.2.1.1 x hx

/-- The counts of the calls, with the one that moves set apart. -/
def ArcState.CountedBeside (s : ArcState) (others : List ArcOp) (op : ArcOp) : Prop :=
  ArcCounts s.strongs.length s.weaks.length (others.countP pending + op.pending.toNat)
    (others.countP locks + op.locks.toNat) (others.countP taking + op.taking.toNat)
    (others.countP freeing + op.freeing.toNat) s.strong s.weak s.taken s.freed

lemma ArcState.countedBeside_iff (hops : s.ops = pre ++ op :: post) :
    s.Counted ↔ s.CountedBeside (pre ++ post) op := by
  have htoNat (b : Bool) : b.toNat = if b then 1 else 0 := by cases b <;> rfl
  unfold Counted CountedBeside
  simp only [hops, countP_append, countP_cons, Nat.add_assoc, htoNat]

lemma ArcInv.replace (hi : ArcInv s) (hops : s.ops = pre ++ op :: post)
    (hstep : HandleStep s s' op op') (hcounted : s'.CountedBeside (pre ++ post) op') :
    ArcInv { s' with ops := pre ++ op' :: post, late := 0 } := by
  have hothers {x : ArcOp} (hx : x ∈ pre ++ op' :: post) : x = op' ∨ x ∈ pre ++ post := by
    simp only [mem_append, mem_cons] at hx ⊢
    tauto
  have hold {x : ArcOp} (hx : x ∈ pre ++ post) : x ∈ s.ops := by
    rw [hops]
    simp only [mem_append] at hx ⊢
    tauto
  -- the moved call is compatible with all that it was compatible with
  have hcompatible {x : ArcOp} (hx : x ∈ pre ++ post) : op'.compatible x = true := by
    have h := hi.compatible hops hx
    rw [compatible_iff] at h ⊢
    intro y hy hxy
    obtain ⟨hop, hexclusive, -⟩ := hstep.handle y hy
    obtain ⟨hshared, hx⟩ := h y hop hxy
    refine ⟨?_, hx⟩
    by_contra hne
    rw [hexclusive (by simpa using hne)] at hshared
    cases hshared
  refine ⟨(countedBeside_iff rfl).2 hcounted, hstep.strongs, hstep.weaks, hstep.fresh, ?_,
    ?_, ?_, rfl⟩
  · intro x hx h hh
    rcases hothers hx with rfl | hx
    · have hlive := (hstep.handle h hh).2.2
      cases h with
      | strong n => exact hlive
      | weak n => exact hlive
    · have hlive : s'.Live h := by
        refine hstep.kept h (hi.live x (hold hx) h hh) ?_
        intro hexclusive heq
        have := ((compatible_iff.1 (hi.compatible hops hx)) h heq hh).1
        rw [hexclusive] at this
        cases this
      cases h with
      | strong n => exact hlive
      | weak n => exact hlive
  · have hapart := hi.apart
    rw [hops, pairwise_append, pairwise_cons] at hapart
    rw [pairwise_append, pairwise_cons]
    refine ⟨hapart.1, ⟨?_, hapart.2.1.2⟩, ?_⟩
    · intro x hx
      exact hcompatible (mem_append_right _ hx)
    · exact fun x hx => forall_mem_cons.2 ⟨compatible_symm (hcompatible (mem_append_left _ hx)),
        (forall_mem_cons.1 (hapart.2.2 x hx)).2⟩
  · intro x hx n hn
    rcases hothers hx with rfl | hx
    · exact hstep.unique n hn
    obtain ⟨hstrongs, hweaks⟩ := hi.unique x (hold hx) n hn
    have hxhandle : x.handle = some (.strong n) ∧ x.exclusive = true := by
      rcases hn with rfl | rfl
      · exact ⟨rfl, rfl⟩
      · exact ⟨rfl, rfl⟩
    rcases hstep.changed with ⟨h₁, h₂⟩ | hhandle
    · exact ⟨h₁.trans hstrongs, h₂.trans hweaks⟩
    · -- the call that moves would be on the handle that is exclusively borrowed
      obtain ⟨h, hh⟩ := isSome_iff_exists.1 hhandle
      have hlive := hi.live_of hops hh
      have heq : h = .strong n := by
        cases h with
        | strong m =>
          have hm : m ∈ s.strongs := hlive
          rw [hstrongs, mem_singleton] at hm
          rw [hm]
        | weak m =>
          have hm : m ∈ s.weaks := hlive
          rw [hweaks] at hm
          cases hm
      have := (compatible_iff.1 (hi.compatible hops hx)) (.strong n) (heq ▸ hh) hxhandle.1
      rw [hxhandle.2] at this
      cases this.2

lemma ArcState.Live.mono (hlive : s.Live h)
    (hstrongs : s.strongs ⊆ s'.strongs) (hweaks : s.weaks ⊆ s'.weaks) : s'.Live h := by
  cases h with
  | strong n => exact hstrongs hlive
  | weak n => exact hweaks hlive

lemma HandleStep.quiet (hi : ArcInv s) (hops : s.ops = pre ++ op :: post)
    (hsame : s'.strongs = s.strongs ∧ s'.weaks = s.weaks ∧ s'.nextHandle = s.nextHandle)
    (hhandle : ∀ h, op'.handle = some h →
      op.handle = some h ∧ (op'.exclusive = true → op.exclusive = true))
    (hunique : ∀ n, op' = .unlockWeak n true true ∨ op' = .borrowed n →
      s.strongs = [n] ∧ s.weaks = []) : HandleStep s s' op op' := by
  obtain ⟨hstrongs, hweaks, hnext⟩ := hsame
  have hlive (h : ArcHandle) (hh : s.Live h) : s'.Live h :=
    hh.mono (hstrongs ▸ Subset.refl _) (hweaks ▸ Subset.refl _)
  exact
    { strongs := hstrongs ▸ hi.strongs
      weaks := hweaks ▸ hi.weaks
      fresh := by
        rw [hstrongs, hweaks, hnext]
        exact hi.fresh
      kept := fun h hh _ => hlive h hh
      handle := fun h hh =>
        ⟨(hhandle h hh).1, (hhandle h hh).2, hlive h (hi.live_of hops (hhandle h hh).1)⟩
      changed := .inl ⟨hstrongs, hweaks⟩
      unique := by
        rw [hstrongs, hweaks]
        exact hunique }

section Lists

variable {l l' : List Nat} {k : Nat}

lemma fresh_nodup (hl : l.Nodup) (hlt : ∀ m ∈ l, m < k) (hnew : l' = l ∨ l' = k :: l) :
    l'.Nodup := by
  rcases hnew with rfl | rfl
  · exact hl
  · exact nodup_cons.2 ⟨fun hmem => Nat.lt_irrefl _ (hlt k hmem), hl⟩

lemma lt_of_fresh (hlt : ∀ m ∈ l, m < k) (hnew : l' = l ∨ l' = k :: l) : ∀ m ∈ l', m < k + 1 := by
  rcases hnew with rfl | rfl
  · exact fun m hm => Nat.lt_succ_of_lt (hlt m hm)
  · exact forall_mem_cons.2 ⟨Nat.lt_succ_self k, fun m hm => Nat.lt_succ_of_lt (hlt m hm)⟩

lemma subset_fresh (hnew : l' = l ∨ l' = k :: l) : l ⊆ l' := by
  rcases hnew with rfl | rfl
  · exact Subset.refl _
  · exact subset_cons_self _ _

end Lists

section

variable (hi : ArcInv s)
include hi

lemma HandleStep.create (hhandle : op.handle.isSome = true)
    (hstrongs : s'.strongs = s.strongs ∨ s'.strongs = s.nextHandle :: s.strongs)
    (hweaks : s'.weaks = s.weaks ∨ s'.weaks = s.nextHandle :: s.weaks)
    (hnext : s'.nextHandle = s.nextHandle + 1) : HandleStep s s' op .returned where
  strongs := fresh_nodup hi.strongs (fun m hm => hi.fresh m (.inl hm)) hstrongs
  weaks := fresh_nodup hi.weaks (fun m hm => hi.fresh m (.inr hm)) hweaks
  fresh n hn := by
    rw [hnext]
    rcases hn with hn | hn
    · exact lt_of_fresh (fun m hm => hi.fresh m (.inl hm)) hstrongs n hn
    · exact lt_of_fresh (fun m hm => hi.fresh m (.inr hm)) hweaks n hn
  kept h hh _ := hh.mono (subset_fresh hstrongs) (subset_fresh hweaks)
  handle h hh := by cases hh
  changed := .inr hhandle
  unique n hn := by rcases hn with hn | hn <;> cases hn

lemma HandleStep.consume (hexclusive : op.exclusive = true)
    (hgone : op.handle = some (.strong n) ∧ s'.strongs = s.strongs.erase n ∧ s'.weaks = s.weaks ∨
      op.handle = some (.weak n) ∧ s'.strongs = s.strongs ∧ s'.weaks = s.weaks.erase n)
    (hnext : s'.nextHandle = s.nextHandle) (hhandle : op'.handle = none) :
    HandleStep s s' op op' := by
  have hhandle' (h : ArcHandle) : op'.handle ≠ some h := by simp [hhandle]
  have hunique (n : Nat) : ¬ (op' = .unlockWeak n true true ∨ op' = .borrowed n) := by
    rintro (rfl | rfl)
    · exact hhandle' _ rfl
    · exact hhandle' _ rfl
  rcases hgone with ⟨hop, hstrongs, hweaks⟩ | ⟨hop, hstrongs, hweaks⟩
  · refine ⟨hstrongs ▸ hi.strongs.erase n, hweaks ▸ hi.weaks, ?_, ?_,
      fun h hh => absurd hh (hhandle' h), .inr (by simp [hop]), fun m hm => absurd hm (hunique m)⟩
    · rw [hstrongs, hweaks, hnext]
      exact fun m hm => hi.fresh m (hm.imp_left mem_of_mem_erase)
    · intro h hh hother
      cases h with
      | strong m =>
        have hmn : m ≠ n := fun heq => hother hexclusive (heq ▸ hop)
        exact (hstrongs ▸ (mem_erase_of_ne hmn).2 hh : m ∈ s'.strongs)
      | weak m => exact (hweaks ▸ hh : m ∈ s'.weaks)
  · refine ⟨hstrongs ▸ hi.strongs, hweaks ▸ hi.weaks.erase n, ?_, ?_,
      fun h hh => absurd hh (hhandle' h), .inr (by simp [hop]), fun m hm => absurd hm (hunique m)⟩
    · rw [hstrongs, hweaks, hnext]
      exact fun m hm => hi.fresh m (hm.imp_right mem_of_mem_erase)
    · intro h hh hother
      cases h with
      | strong m => exact (hstrongs ▸ hh : m ∈ s'.strongs)
      | weak m =>
        have hmn : m ≠ n := fun heq => hother hexclusive (heq ▸ hop)
        exact (hweaks ▸ (mem_erase_of_ne hmn).2 hh : m ∈ s'.weaks)

variable (hops : s.ops = pre ++ op :: post)
include hops

/-- A locked weak counter is locked by a call on another strong handle than a consumed one. -/
lemma ArcInv.unlocked (hhandle : op.handle = some (.strong n))
    (hexclusive : op.exclusive = true) (hlast : s.strongs.length = 1) :
    (pre ++ post).countP locks = 0 := by
  rw [countP_eq_zero]
  intro x hx hlocks
  obtain ⟨m, hm⟩ : ∃ m, x.handle = some (.strong m) := by
    cases x with
    | readStrong m e | unlockWeak m e u => exact ⟨m, rfl⟩
    | _ => cases hlocks
  have hn : n ∈ s.strongs := hi.live_of hops hhandle
  have hm' : m ∈ s.strongs := hi.live x (by grind) _ hm
  obtain ⟨k, hk⟩ := length_eq_one_iff.1 hlast
  rw [hk, mem_singleton] at hn hm'
  subst hn hm'
  have := (compatible_iff.1 (hi.compatible hops hx)) _ hhandle hm
  rw [hexclusive] at this
  cases this.1

/-- While the weak counter is locked, a strong count of one means that there is no other handle. -/
lemma ArcInv.unique_of_locked (hhandle : op.handle = some (.strong n)) (hlocks : op.locks = true)
    (hone : s.strong = 1) : s.strongs = [n] ∧ s.weaks = [] := by
  have hc := (countedBeside_iff hops).1 hi.counted
  unfold CountedBeside at hc
  rw [hlocks] at hc
  have hn : n ∈ s.strongs := hi.live_of hops hhandle
  have hlast : s.strongs.length = 1 := hc.strong_eq.symm.trans hone
  have hnone : s.weaks.length = 0 := by
    rcases hc.weak_eq with ⟨hzero, -⟩ | ⟨-, -, hweaks, -⟩
    · simp at hzero
    · exact hweaks
  obtain ⟨k, hk⟩ := length_eq_one_iff.1 hlast
  rw [hk, mem_singleton] at hn
  exact ⟨hn ▸ hk, length_eq_zero_iff.1 hnone⟩

/-- The call that consumes the last strong handle is left with the implicit weak reference. -/
lemma ArcInv.dropLast (hop : op = .dropStrong n ∨ op = .tryUnwrap n)
    (hlast : s.strong = 1) : ArcInv { s with
      strong := 0, strongs := s.strongs.erase n, ops := pre ++ .takePayload :: post,
      late := 0 } := by
  obtain ⟨hhandle, hexclusive⟩ : op.handle = some (.strong n) ∧ op.exclusive = true := by
    rcases hop with rfl | rfl <;> exact ⟨rfl, rfl⟩
  have hc := (countedBeside_iff hops).1 hi.counted
  have hone : s.strongs.length = 1 := hc.strong_eq.symm.trans hlast
  have herase : (s.strongs.erase n).length = 0 := by
    have := length_erase_add_one (hi.live_of hops hhandle)
    omega
  have hstep : HandleStep s { s with strong := 0, strongs := s.strongs.erase n } op .takePayload :=
    .consume hi hexclusive (.inl ⟨hhandle, rfl, rfl⟩) rfl rfl
  refine hi.replace hops hstep ?_
  unfold CountedBeside
  rw [herase]
  have hunlocked := hi.unlocked hops hhandle hexclusive hone
  rcases hop with rfl | rfl
  · exact hc.dropLastStrong hlast hunlocked
  · exact hc.dropLastStrong hlast hunlocked

section

variable (hsame : s'.strongs = s.strongs ∧ s'.weaks = s.weaks ∧ s'.nextHandle = s.nextHandle)
include hsame

lemma ArcInv.goOn (hhandle : op'.handle = op.handle) (hexclusive : op'.exclusive = op.exclusive)
    (hunique : ∀ n, op' = .unlockWeak n true true ∨ op' = .borrowed n →
      s.strongs = [n] ∧ s.weaks = []) (hcounted : s'.CountedBeside (pre ++ post) op') :
    ArcInv { s' with ops := pre ++ op' :: post, late := 0 } := by
  refine hi.replace hops (.quiet hi hops hsame ?_ hunique) hcounted
  rw [hhandle, hexclusive]
  exact fun h hh => ⟨hh, fun h => h⟩

lemma ArcInv.letGo (hnone : op'.handle = none) (hcounted : s'.CountedBeside (pre ++ post) op') :
    ArcInv { s' with ops := pre ++ op' :: post, late := 0 } := by
  refine hi.replace hops (.quiet hi hops hsame ?_ ?_) hcounted
  · simp [hnone]
  · rintro n (rfl | rfl) <;> cases hnone

end

lemma ArcInv.advance (hadvance : s.advance word op spurious = some (op', s')) :
    ArcInv { s' with ops := pre ++ op' :: post, late := 0 } := by
  have hc := (ArcState.countedBeside_iff hops).1 hi.counted
  have htaking : (pre ++ post).countP taking ≤ (pre ++ post).countP pending := by
    apply countP_mono_left
    intro x _ hx
    cases x with
    | takePayload => rfl
    | _ => cases hx
  unfold ArcState.advance at hadvance
  split at hadvance
  -- the first load of a call
  case h_1 n | h_3 h | h_5 n =>
    cases hadvance
    exact hi.goOn hops ⟨rfl, rfl, rfl⟩ rfl rfl (by simp) hc
  next n count =>
    split at hadvance
    · cases hadvance
    next hcount =>
      rw [not_or, Nat.not_le] at hcount
      split at hadvance
      next hcas =>
        cases hadvance
        cases (casSucceeds_iff.1 hcas).1
        exact hi.replace hops (.create hi rfl (.inr rfl) (.inl rfl) rfl)
          (hc.addStrong hcount.1 hcount.2)
      next =>
        cases hadvance
        exact hi.goOn hops ⟨rfl, rfl, rfl⟩ rfl rfl (by simp) hc
  next h count =>
    split at hadvance
    · cases hadvance
      exact hi.goOn hops ⟨rfl, rfl, rfl⟩ rfl rfl (by simp) hc
    next hunlocked =>
      split at hadvance
      · cases hadvance
      next hcount =>
        rw [not_or, Nat.not_le] at hcount
        split at hadvance
        next hcas =>
          cases hadvance
          cases (casSucceeds_iff.1 hcas).1
          exact hi.replace hops (.create hi rfl (.inl rfl) (.inr rfl) rfl)
            (hc.addWeak hunlocked hcount.1 hcount.2)
        next =>
          cases hadvance
          exact hi.goOn hops ⟨rfl, rfl, rfl⟩ rfl rfl (by simp) hc
  next n count =>
    split at hadvance
    · cases hadvance
      exact hi.letGo hops ⟨rfl, rfl, rfl⟩ rfl hc
    next hpos =>
      split at hadvance
      · cases hadvance
      next hlimit =>
        split at hadvance
        next hcas =>
          cases hadvance
          cases (casSucceeds_iff.1 hcas).1
          exact hi.replace hops (.create hi rfl (.inr rfl) (.inl rfl) rfl)
            (hc.addStrong hpos (Nat.lt_of_not_le hlimit))
        next =>
          cases hadvance
          exact hi.goOn hops ⟨rfl, rfl, rfl⟩ rfl rfl (by simp) hc
  next n exclusive =>
    split at hadvance
    next hweak =>
      cases hadvance
      have hn : n ∈ s.strongs := hi.live_of hops rfl
      exact hi.goOn hops ⟨rfl, rfl, rfl⟩ rfl rfl (by simp)
        (hc.lock (Nat.ne_of_gt (length_pos_of_mem hn)) hweak)
    next =>
      cases hadvance
      exact hi.letGo hops ⟨rfl, rfl, rfl⟩ rfl hc
  next n exclusive =>
    cases hadvance
    refine hi.goOn hops ⟨rfl, rfl, rfl⟩ rfl rfl ?_ hc
    -- the counter is locked, so there is no weak handle
    intro m hm
    rcases hm with hm | hm
    · obtain ⟨rfl, -, hunique⟩ := unlockWeak.inj hm
      exact hi.unique_of_locked hops rfl rfl (by simpa using hunique)
    · cases hm
  next n exclusive unique =>
    cases hadvance
    split
    next hborrow =>
      obtain ⟨rfl, rfl⟩ : exclusive = true ∧ unique = true := by simpa using hborrow
      refine hi.goOn hops ⟨rfl, rfl, rfl⟩ rfl rfl ?_ hc.unlock
      intro m hm
      rcases hm with hm | hm
      · cases hm
      · cases hm
        exact hi.unique _ (by simp [hops]) n (.inl rfl)
    next => exact hi.letGo hops ⟨rfl, rfl, rfl⟩ rfl hc.unlock
  next n =>
    cases hadvance
    exact hi.letGo hops ⟨rfl, rfl, rfl⟩ rfl hc
  next n =>
    cases hadvance
    have hn : n ∈ s.strongs := hi.live_of hops rfl
    have hdecrement : word.decrement s.strong = s.strong - 1 := by
      have hpos := length_pos_of_mem hn
      have hlimits : countLimit ≤ countLock := by decide
      have := hc.strong_eq
      have := hc.strong_le
      exact word.decrement_eq (by omega) (by omega)
    rw [hdecrement]
    split
    next hlast =>
      rw [hlast]
      exact hi.dropLast hops (.inl rfl) hlast
    next hlast =>
      refine hi.replace hops (.consume hi rfl (.inl ⟨rfl, rfl, rfl⟩) rfl rfl) ?_
      unfold ArcState.CountedBeside at hc
      rw [← length_erase_add_one hn] at hc
      exact hc.dropStrong hlast
  next n =>
    split at hadvance
    next hlast =>
      cases hadvance
      exact hi.dropLast hops (.inr rfl) hlast
    next =>
      cases hadvance
      exact hi.letGo hops ⟨rfl, rfl, rfl⟩ rfl hc
  next =>
    cases hadvance
    exact hi.letGo hops ⟨rfl, rfl, rfl⟩ rfl hc.take
  next =>
    cases hadvance
    have hdecrement : word.decrement s.weak = s.weak - 1 := by
      refine word.decrement_eq ?_ hc.weak_le_lock
      have hpending : dropImplicit.pending.toNat = 1 := rfl
      have hlock : countLock = 2147483647 := rfl
      have := hc.weak_eq
      omega
    rw [hdecrement]
    split
    next hlast => exact hi.letGo hops ⟨rfl, rfl, rfl⟩ rfl (hc.dropLastImplicit htaking hlast)
    next hlast => exact hi.letGo hops ⟨rfl, rfl, rfl⟩ rfl (hc.dropImplicit htaking hlast)
  next n =>
    cases hadvance
    have hn : n ∈ s.weaks := hi.live_of hops rfl
    have hdecrement : word.decrement s.weak = s.weak - 1 := by
      refine word.decrement_eq ?_ hc.weak_le_lock
      have hpos := length_pos_of_mem hn
      have hlock : countLock = 2147483647 := rfl
      have := hc.weak_eq
      omega
    rw [hdecrement]
    unfold ArcState.CountedBeside at hc
    rw [← length_erase_add_one hn] at hc
    split
    next hlast =>
      exact hi.replace hops (.consume hi rfl (.inr ⟨rfl, rfl, rfl⟩) rfl rfl) (hc.dropLastWeak hlast)
    next hlast =>
      exact hi.replace hops (.consume hi rfl (.inr ⟨rfl, rfl, rfl⟩) rfl rfl) (hc.dropWeak hlast)
  next =>
    cases hadvance
    exact hi.letGo hops ⟨rfl, rfl, rfl⟩ rfl hc.free
  next => cases hadvance

lemma ArcInv.freed_eq_zero (htouches : op.touches = true) : s.freed = 0 := by
  have hc := (countedBeside_iff hops).1 hi.counted
  have hfreed := hc.freed_eq
  -- a live handle, the implicit weak reference, or the duty to free it
  cases hhandle : op.handle with
  | some h =>
    have hlive := hi.live_of hops hhandle
    cases h with
    | strong n =>
      have := length_pos_of_mem (show n ∈ s.strongs from hlive)
      omega
    | weak n =>
      have := length_pos_of_mem (show n ∈ s.weaks from hlive)
      omega
  | none =>
    cases op with
    | takePayload | dropImplicit | freeBlock =>
      simp only [pending, freeing, Bool.toNat_true] at hfreed
      omega
    | returned => cases htouches
    | _ => cases hhandle

end

lemma ArcState.advance_late
    (hadvance : s.advance word op spurious = some (op', s')) : s'.late = s.late := by
  unfold advance at hadvance
  repeat' split at hadvance
  all_goals (cases hadvance <;> rfl)

lemma ArcInv.call {c : ArcCall} (hi : ArcInv s) (hlive : ∀ h ∈ c.op.handle, s.Live h)
    (hcompatible : s.ops.all c.op.compatible = true) :
    ArcInv { s with ops := s.ops ++ [c.op] } := by
  have hquiet : c.op.pending = false ∧ c.op.locks = false ∧ c.op.taking = false ∧
      c.op.freeing = false := by
    cases c <;> exact ⟨rfl, rfl, rfl, rfl⟩
  refine ⟨?_, hi.strongs, hi.weaks, hi.fresh, ?_, ?_, ?_, hi.late⟩
  · have hc := hi.counted
    unfold Counted at hc ⊢
    simpa [hquiet.1, hquiet.2.1, hquiet.2.2.1, hquiet.2.2.2] using hc
  · intro op hop h hh
    have hlive' : s.Live h := by
      rcases mem_append.1 hop with hop | hop
      · exact hi.live op hop h hh
      · rw [mem_singleton.1 hop] at hh
        exact hlive h hh
    exact hlive'.mono (Subset.refl _) (Subset.refl _)
  · rw [pairwise_append]
    refine ⟨hi.apart, pairwise_singleton _ _, ?_⟩
    intro x hx y hy
    rw [mem_singleton.1 hy]
    exact compatible_symm (all_eq_true.1 hcompatible x hx)
  · intro op hop n hn
    rcases mem_append.1 hop with hop | hop
    · exact hi.unique op hop n hn
    · rw [mem_singleton.1 hop] at hn
      cases c <;> simp [ArcCall.op] at hn

lemma ArcInv.step {move : ArcMove} (hi : ArcInv s)
    (hstep : s.step word move = some s') : ArcInv s' := by
  cases move with
  | call c =>
    simp only [ArcState.step] at hstep
    split at hstep
    next hguard =>
      cases hstep
      exact hi.call hguard.1 hguard.2
    next => cases hstep
  | advance k spurious =>
    obtain ⟨pre, op, post, op', s₁, hops, hadvance, rfl⟩ := ArcState.step_advance hstep
    have hlate : s₁.late = 0 := (ArcState.advance_late hadvance).trans hi.late
    have hnever : (op.touches && s.freed != 0) = false := by
      cases htouches : op.touches with
      | false => rfl
      | true => simp [hi.freed_eq_zero hops htouches]
    rw [hnever, hlate]
    exact hi.advance hops hadvance

end Handles

/-! ## What shared ownership promises -/

lemma ArcInv.new : ArcInv .new where
  counted := by
    constructor <;> decide
  strongs := by decide
  weaks := by decide
  fresh n hn := by simpa [ArcState.new] using hn
  live op hop := by cases hop
  apart := Pairwise.nil
  unique op hop := by cases hop
  late := rfl

/-- What holds of every state of an allocation. -/
structure ArcSafe (s : ArcState) : Prop where
  /-- the payload leaves at most once, and not while there is a strong handle -/
  taken : s.taken ≤ 1 ∧ (s.strongs ≠ [] → s.taken = 0)
  /-- the block is freed at most once, after the payload has left and the last handle is gone -/
  freed : s.freed ≤ 1 ∧ (s.freed = 1 → s.taken = 1 ∧ s.strongs = [] ∧ s.weaks = [])
  /-- the block is not touched after that -/
  late : s.late = 0
  /-- nothing is left behind when no call is in progress -/
  settled : (∀ op ∈ s.ops, op = .returned) →
    (s.strongs = [] → s.taken = 1) ∧ (s.strongs = [] → s.weaks = [] → s.freed = 1)
  /-- from the check of a `getMut` that succeeds to the end of the borrow its handle is the only
  one -/
  exclusive : ∀ n, .unlockWeak n true true ∈ s.ops ∨ .borrowed n ∈ s.ops →
    s.strongs = [n] ∧ s.weaks = []

lemma ArcInv.safe {s : ArcState} (hi : ArcInv s) : ArcSafe s where
  taken := by
    have htaken := hi.counted.taken_eq
    refine ⟨by omega, fun hne => ?_⟩
    have := length_pos_iff.2 hne
    omega
  freed := by
    have htaken := hi.counted.taken_eq
    have hfreed := hi.counted.freed_eq
    have htaking := hi.counted.taking_le
    refine ⟨by omega, fun hone => ⟨by omega, ?_, ?_⟩⟩
    · exact length_eq_zero_iff.1 (by omega)
    · exact length_eq_zero_iff.1 (by omega)
  late := hi.late
  settled hreturned := by
    have hnone {p : ArcOp → Bool} (hp : p .returned = false) : s.ops.countP p = 0 := by
      rw [countP_eq_zero]
      intro op hop
      rw [hreturned op hop, hp]
      simp
    have htaken := hi.counted.taken_eq
    have hfreed := hi.counted.freed_eq
    have htaking : s.ops.countP taking = 0 := hnone rfl
    have hpending : s.ops.countP pending = 0 := hnone rfl
    have hfreeing : s.ops.countP freeing = 0 := hnone rfl
    refine ⟨fun hstrongs => ?_, fun hstrongs hweaks => ?_⟩
    · have := length_eq_zero_iff.2 hstrongs
      omega
    · have := length_eq_zero_iff.2 hstrongs
      have := length_eq_zero_iff.2 hweaks
      omega
  exclusive n hn := by
    rcases hn with hn | hn
    · exact hi.unique _ hn n (.inl rfl)
    · exact hi.unique _ hn n (.inr rfl)

/-- What holds of every atomic step: an upgrade succeeds only while the payload is there, and a
uniqueness check only if at that instant its handle is the only one. -/
structure ArcStepSafe (s : ArcState) (k : Nat) (s' : ArcState) : Prop where
  upgrade : ∀ n seen, s.ops[k]? = some (.upgrade n seen) → s'.strongs ≠ s.strongs → s.taken = 0
  unique : ∀ n exclusive, s.ops[k]? = some (.readStrong n exclusive) →
    s'.ops[k]? = some (.unlockWeak n exclusive true) → s.strongs = [n] ∧ s.weaks = []

lemma ArcInv.stepSafe {s s' : ArcState} {k : Nat}
    (hi : ArcInv s) (hstep : s.step word (.advance k spurious) = some s') : ArcStepSafe s k s' where
  upgrade n seen hop hnew := by
    simp only [ArcState.step, hop] at hstep
    cases seen with
    | none =>
      exact absurd (congrArg ArcState.strongs (some.inj hstep)).symm hnew
    | some count =>
      simp only [ArcState.advance] at hstep
      -- the exchange succeeds on a count that is not zero
      by_cases hpos : count = 0
      · rw [if_pos hpos] at hstep
        exact absurd (congrArg ArcState.strongs (some.inj hstep)).symm hnew
      by_cases hlimit : countLimit ≤ count
      · rw [if_neg hpos, if_pos hlimit] at hstep
        cases hstep
      by_cases hcas : casSucceeds s.strong count spurious = true
      · have hstrong := (casSucceeds_iff.1 hcas).1
        have := hi.counted.strong_eq
        have := hi.counted.taken_eq
        omega
      · rw [if_neg hpos, if_neg hlimit, if_neg hcas] at hstep
        exact absurd (congrArg ArcState.strongs (some.inj hstep)).symm hnew
  unique n exclusive hop hop' := by
    have hk := (List.getElem?_eq_some_iff.1 hop).1
    simp only [ArcState.step, hop] at hstep
    have hs' := congrArg ArcState.ops (some.inj hstep)
    rw [← hs', getElem?_set_self hk] at hop'
    have hone : s.strong = 1 := by simpa using hop'
    obtain ⟨pre, post, hops⟩ := append_of_mem (mem_of_getElem? hop)
    exact hi.unique_of_locked hops rfl rfl hone

/-- Along every interleaving of the atomic steps of calls on live handles that respects their
borrows, the payload leaves once, the block is freed once and not touched afterwards, no upgrade
succeeds on a payload that has left, and uniqueness checks succeed on the only handle alone. -/
theorem arc_safe (word : WordSize) {moves : List ArcMove} {s : ArcState}
    (hrun : runSchedule (ArcState.step word) moves .new = some s) :
    ArcSafe s ∧ ∀ k spurious s', s.step word (.advance k spurious) = some s' →
      ArcStepSafe s k s' := by
  have hi : ArcInv s := runSchedule_invariant (fun _ _ _ hi => hi.step) ArcInv.new hrun
  refine ⟨hi.safe, ?_⟩
  intro k spurious s' hstep
  exact hi.stepSafe hstep

/-- A weak handle that outlives the payload frees the block. -/
theorem arc_safe_outlived :
    ArcSafe ⟨0, 0, [], [], 2, [.returned, .returned, .returned], 1, 1, 0⟩ := by
  have hrun : runSchedule (ArcState.step .bits32)
      [.call (.downgrade 0), .advance 0 false, .advance 0 false, .call (.destroy 0),
        .advance 1 false, .advance 1 false, .call (.weakDestroy 1), .advance 1 false,
        .advance 2 false, .advance 2 false] .new =
      some ⟨0, 0, [], [], 2, [.returned, .returned, .returned], 1, 1, 0⟩ := by decide +kernel
  exact (arc_safe .bits32 hrun).1

end Arandu.Stdlib
