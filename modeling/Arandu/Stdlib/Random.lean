import Mathlib.Data.Nat.Bitwise

/-!
# Random numbers

`stdlib/std/random.aru`: xoshiro256++, seeded by SplitMix64. The generator never comes to the state
of four zeros, which it could not leave again.
-/

namespace Arandu.Stdlib.Random

def rotl64 (x k : UInt64) : UInt64 := (x <<< k) ||| (x >>> (64 - k))

structure SplitMix64 where
  state : UInt64

def SplitMix64.next (sm : SplitMix64) : UInt64 × SplitMix64 :=
  let state := sm.state + 0x9e3779b97f4a7c15
  let z := (state ^^^ (state >>> 30)) * 0xbf58476d1ce4e5b9
  let z := (z ^^^ (z >>> 27)) * 0x94d049bb133111eb
  (z ^^^ (z >>> 31), ⟨state⟩)

structure Xoshiro256PlusPlus where
  s0 : UInt64
  s1 : UInt64
  s2 : UInt64
  s3 : UInt64
deriving DecidableEq, Repr

def fromSeed (seed : UInt64) : Xoshiro256PlusPlus :=
  let r0 := SplitMix64.next ⟨seed⟩
  let r1 := r0.2.next
  let r2 := r1.2.next
  let r3 := r2.2.next
  ⟨r0.1, r1.1, r2.1, r3.1⟩

def nextU64 (self : Xoshiro256PlusPlus) : UInt64 × Xoshiro256PlusPlus :=
  let result := rotl64 (self.s0 + self.s3) 23 + self.s0
  let t := self.s1 <<< 17
  let s2 := self.s2 ^^^ self.s0
  let s3 := self.s3 ^^^ self.s1
  let s1 := self.s1 ^^^ s2
  let s0 := self.s0 ^^^ s3
  (result, ⟨s0, s1, s2 ^^^ t, rotl64 s3 45⟩)

/-- The state after some draws. -/
def advance (n : Nat) (self : Xoshiro256PlusPlus) : Xoshiro256PlusPlus :=
  (fun g => (nextU64 g).2)^[n] self

/-! ## The state is not zero -/

variable {x c d k : UInt64}

lemma xorShift_eq_zero (hk : 0 < k.toNat % 64) (h : x ^^^ (x >>> k) = 0) : x = 0 := by
  have heq := congrArg UInt64.toNat (UInt64.xor_eq_zero_iff.1 h)
  rw [UInt64.toNat_shiftRight, Nat.shiftRight_eq_div_pow] at heq
  by_contra hne
  have hpos : 0 < x.toNat := Nat.pos_of_ne_zero fun h0 => hne (UInt64.toNat_inj.1 h0)
  have hlt := Nat.div_lt_self hpos (Nat.one_lt_two_pow (Nat.ne_of_gt hk))
  omega

/-- A factor with an inverse, so one that is odd, can be cancelled. -/
lemma eq_zero_of_mul (hinv : c * d = 1) (h : x * c = 0) : x = 0 := by
  rw [← UInt64.mul_one x, ← hinv, ← UInt64.mul_assoc, h, UInt64.zero_mul]

lemma next_eq_zero {sm : SplitMix64} (h : sm.next.1 = 0) : sm.next.2.state = 0 := by
  have h₁ := xorShift_eq_zero (by decide) h
  have h₂ := xorShift_eq_zero (by decide) (eq_zero_of_mul (d := 0x319642b2d24d8ec3) (by decide) h₁)
  exact xorShift_eq_zero (by decide) (eq_zero_of_mul (d := 0x96de1b173f119089) (by decide) h₂)

/-- Only one state is mixed to zero, and the first two are different. -/
lemma fromSeed_ne_zero (seed : UInt64) : fromSeed seed ≠ ⟨0, 0, 0, 0⟩ := by
  intro h
  obtain ⟨h0, h1, -, -⟩ := Xoshiro256PlusPlus.mk.inj h
  have hfirst : seed + 0x9e3779b97f4a7c15 = 0 := next_eq_zero h0
  have hsecond : seed + 0x9e3779b97f4a7c15 + 0x9e3779b97f4a7c15 = 0 := next_eq_zero h1
  rw [hfirst] at hsecond
  cases hsecond

lemma toNat_shiftLeft (x : UInt64) (n : Nat) (hn : k.toNat % 64 = n) :
    (x <<< k).toNat = x.toNat * 2 ^ n % 2 ^ 64 := by
  rw [UInt64.toNat_shiftLeft, Nat.shiftLeft_eq, hn]

lemma rotl64_eq_zero (h : rotl64 x 45 = 0) : x = 0 := by
  obtain ⟨hleft, hright⟩ := UInt64.or_eq_zero_iff.1 h
  have hlow := (toNat_shiftLeft x 45 rfl).symm.trans (congrArg UInt64.toNat hleft)
  have hhigh : x.toNat >>> 19 = 0 :=
    (UInt64.toNat_shiftRight x _).symm.trans (congrArg UInt64.toNat hright)
  rw [Nat.shiftRight_eq_div_pow] at hhigh
  apply UInt64.toNat_inj.1
  rw [UInt64.toNat_zero] at hlow ⊢
  omega

lemma eq_shiftLeft_self (h : x = x <<< 17) : x = 0 := by
  have heq := (congrArg UInt64.toNat h).trans (toNat_shiftLeft x 17 rfl)
  have hlt := x.toNat_lt
  apply UInt64.toNat_inj.1
  rw [UInt64.toNat_zero]
  omega

/-- The step can be undone. -/
lemma nextU64_ne_zero {g : Xoshiro256PlusPlus} (hg : g ≠ ⟨0, 0, 0, 0⟩) :
    (nextU64 g).2 ≠ ⟨0, 0, 0, 0⟩ := by
  obtain ⟨s0, s1, s2, s3⟩ := g
  intro h
  obtain ⟨h0, h1, h2, h3⟩ := Xoshiro256PlusPlus.mk.inj h
  dsimp only at h0 h1 h2 h3
  have h31 := rotl64_eq_zero h3
  rw [h31, UInt64.xor_zero] at h0
  rw [h0, UInt64.xor_zero, UInt64.xor_eq_zero_iff] at h1 h2
  have hs1 := eq_shiftLeft_self (h1.trans h2)
  rw [hs1, UInt64.xor_zero] at h31
  exact hg (by rw [h0, ← h1, hs1, h31])

/-- The generator does not get stuck, whatever the seed. -/
theorem advance_ne_zero (seed : UInt64) (n : Nat) : advance n (fromSeed seed) ≠ ⟨0, 0, 0, 0⟩ := by
  induction n with
  | zero => exact fromSeed_ne_zero seed
  | succ n ih =>
    rw [advance, Function.iterate_succ_apply']
    exact nextU64_ne_zero ih

/-! ## Streams stay apart -/

variable {y : UInt64}

lemma xor_exchange {a b : UInt64} (h : a ^^^ x = b ^^^ y) : a ^^^ b = x ^^^ y := by
  rw [← UInt64.xor_eq_zero_iff]
  calc (a ^^^ b) ^^^ (x ^^^ y) = (a ^^^ x) ^^^ (b ^^^ y) := by ac_rfl
    _ = 0 := by rw [h, UInt64.xor_self]

lemma xorShift_inj (hk : 0 < k.toNat % 64) (h : x ^^^ (x >>> k) = y ^^^ (y >>> k)) : x = y := by
  refine UInt64.xor_eq_zero_iff.1 (xorShift_eq_zero hk (UInt64.xor_eq_zero_iff.2 ?_))
  rw [UInt64.shiftRight_xor]
  exact xor_exchange h

lemma eq_of_mul (hinv : c * d = 1) (h : x * c = y * c) : x = y := by
  rw [← UInt64.mul_one x, ← hinv, ← UInt64.mul_assoc, h, UInt64.mul_assoc, hinv, UInt64.mul_one]

lemma next_inj {sm sm' : SplitMix64} (h : sm.next.1 = sm'.next.1) :
    sm.next.2.state = sm'.next.2.state := by
  have h₁ := eq_of_mul (d := 0x319642b2d24d8ec3) (by decide) (xorShift_inj (by decide) h)
  have h₂ := eq_of_mul (d := 0x96de1b173f119089) (by decide) (xorShift_inj (by decide) h₁)
  exact xorShift_inj (by decide) h₂

lemma rotl64_inj (h : rotl64 x 45 = rotl64 y 45) : x = y := by
  have hsum (z : UInt64) : (rotl64 z 45).toNat = z.toNat % 2 ^ 19 * 2 ^ 45 + z.toNat / 2 ^ 19 := by
    have hhigh : (z >>> (64 - 45)).toNat = z.toNat / 2 ^ 19 :=
      (UInt64.toNat_shiftRight z _).trans (Nat.shiftRight_eq_div_pow _ 19)
    have hlt := Nat.div_lt_of_lt_mul (m := z.toNat) (n := 2 ^ 19) (k := 2 ^ 45) z.toNat_lt
    have hlow : z.toNat * 2 ^ 45 % 2 ^ 64 = z.toNat % 2 ^ 19 * 2 ^ 45 :=
      Nat.mul_mod_mul_right (2 ^ 45) z.toNat (2 ^ 19)
    rw [rotl64, UInt64.toNat_or, toNat_shiftLeft z 45 rfl, hhigh, hlow, ← Nat.shiftLeft_eq,
      ← Nat.shiftLeft_add_eq_or_of_lt hlt]
  have heq := congrArg UInt64.toNat h
  rw [hsum, hsum] at heq
  have hx := x.toNat_lt
  have hy := y.toNat_lt
  apply UInt64.toNat_inj.1
  omega

lemma nextU64_inj {g g' : Xoshiro256PlusPlus} (h : (nextU64 g).2 = (nextU64 g').2) : g = g' := by
  obtain ⟨s0, s1, s2, s3⟩ := g
  obtain ⟨t0, t1, t2, t3⟩ := g'
  obtain ⟨h0, h1, h2, h3⟩ := Xoshiro256PlusPlus.mk.inj h
  dsimp only at h0 h1 h2 h3
  have h31 := rotl64_inj h3
  rw [h31, UInt64.xor_left_inj] at h0
  subst h0
  -- without `s0`, the second and the third word have `s1` and its shift in them only
  have h17 : s1 ^^^ t1 = (s1 ^^^ t1) <<< 17 := by
    rw [UInt64.shiftLeft_xor, ← xor_exchange h2]
    exact xor_exchange h1
  have hs1 : s1 = t1 := UInt64.xor_eq_zero_iff.1 (eq_shiftLeft_self h17)
  subst hs1
  rw [UInt64.xor_right_inj, UInt64.xor_left_inj] at h1
  rw [UInt64.xor_left_inj] at h31
  rw [h1, h31]

/-- Generators with different seeds are in different states after any number of draws. -/
theorem advance_fromSeed_injective (n : Nat) :
    Function.Injective fun seed => advance n (fromSeed seed) := by
  intro seed seed' h
  have hstart : fromSeed seed = fromSeed seed' :=
    Function.Injective.iterate (fun _ _ => nextU64_inj) n h
  have hfirst := next_inj (Xoshiro256PlusPlus.mk.inj hstart).1
  exact (UInt64.add_left_inj _).1 hfirst

end Arandu.Stdlib.Random
