import Mathlib.Data.Int.ModEq
import Mathlib.Tactic.Linarith

/-!
# Fixed-width integers as wrapped mathematical integers

A machine integer of a given width and signedness is represented by the mathematical
integer it denotes. Arithmetic is done in `ℤ` and the result is wrapped back into the
range of the type.
-/

namespace Arandu.Library

structure IntShape where
  bits : Nat
  signed : Bool
deriving DecidableEq, Repr

namespace IntShape

/-- Number of representable values. -/
def modulus (s : IntShape) : Int := 2 ^ s.bits

lemma modulus_pos (s : IntShape) : 0 < s.modulus := by
  unfold modulus
  positivity

/-- The representative of `n` modulo `2 ^ bits` that lies in the range of the type. -/
def wrap (s : IntShape) (n : Int) : Int :=
  let low := n % s.modulus
  if s.signed ∧ s.modulus / 2 ≤ low then low - s.modulus else low

/-- Smallest value of the type. -/
def minValue (s : IntShape) : Int := if s.signed then -(2 ^ (s.bits - 1)) else 0

variable (s : IntShape)
include s

lemma wrap_modEq (n : Int) : s.wrap n ≡ n [ZMOD s.modulus] := by
  unfold wrap
  dsimp only
  split
  · calc
      n % s.modulus - s.modulus ≡ n % s.modulus [ZMOD s.modulus] := by simp
      _ ≡ n [ZMOD s.modulus] := Int.mod_modEq n s.modulus
  · exact Int.mod_modEq n s.modulus

lemma wrap_congr {a b : Int} (h : a ≡ b [ZMOD s.modulus]) : s.wrap a = s.wrap b := by
  have hmod : a % s.modulus = b % s.modulus := h
  unfold wrap
  rw [hmod]

@[simp] lemma wrap_wrap (n : Int) : s.wrap (s.wrap n) = s.wrap n :=
  s.wrap_congr (s.wrap_modEq n)

lemma wrap_nonneg (n : Int) (h : s.signed = false) : 0 ≤ s.wrap n := by
  have hpos := s.modulus_pos
  unfold wrap
  rw [if_neg (by simp [h])]
  exact Int.emod_nonneg n hpos.ne'

lemma wrap_bounds (n : Int) : -s.modulus ≤ s.wrap n ∧ s.wrap n < s.modulus := by
  have hpos := s.modulus_pos
  have hlow := Int.emod_nonneg n hpos.ne'
  have hhigh := Int.emod_lt_of_pos n hpos
  unfold wrap
  dsimp only
  split
  · constructor <;> linarith
  · constructor <;> linarith

lemma wrap_of_unsigned {n : Int} (h : s.signed = false) (hn : 0 ≤ n) (hlt : n < s.modulus) :
    s.wrap n = n := by
  unfold wrap
  rw [if_neg (by simp [h])]
  exact Int.emod_eq_of_lt hn hlt

lemma wrap_le_self {n : Int} (h : 0 ≤ n) : s.wrap n ≤ n := by
  have hpos := s.modulus_pos
  have hle : n % s.modulus ≤ n := by
    have hsplit := Int.mul_ediv_add_emod n s.modulus
    have hdiv : 0 ≤ s.modulus * (n / s.modulus) := mul_nonneg hpos.le (Int.ediv_nonneg h hpos.le)
    linarith
  unfold wrap
  dsimp only
  split
  · linarith
  · exact hle

lemma wrap_eq_self_iff (n : Int) :
    s.wrap n = n ↔ (if s.signed then s.modulus / 2 - s.modulus ≤ n ∧ n < s.modulus / 2
      else 0 ≤ n ∧ n < s.modulus) := by
  have hpos := s.modulus_pos
  have hlow := Int.emod_nonneg n hpos.ne'
  have hhigh := Int.emod_lt_of_pos n hpos
  have hnonneg : 0 ≤ n → n < s.modulus → n % s.modulus = n := Int.emod_eq_of_lt
  have hneg : n < 0 → -s.modulus ≤ n → n % s.modulus = n + s.modulus := by
    intro h1 h2
    rw [← Int.add_emod_right]
    exact Int.emod_eq_of_lt (by omega) (by omega)
  unfold wrap
  cases hs : s.signed with
  | false =>
    simp only [Bool.false_eq_true, false_and, if_false]
    constructor
    · omega
    · intro h
      exact hnonneg h.1 h.2
  | true =>
    simp only [true_and, if_true]
    constructor
    · intro h
      split at h <;> omega
    intro h
    split
    · by_cases hn : 0 ≤ n
      · omega
      · omega
    · by_cases hn : 0 ≤ n
      · exact hnonneg hn (by omega)
      · omega

lemma wrap_eq_self_of_between {a b c : Int} (ha : s.wrap a = a) (hc : s.wrap c = c) (hab : a ≤ b)
    (hbc : b ≤ c) : s.wrap b = b := by
  rw [wrap_eq_self_iff] at ha hc ⊢
  cases hs : s.signed with
  | false =>
    simp only [hs, Bool.false_eq_true, if_false] at ha hc ⊢
    omega
  | true =>
    simp only [hs, if_true] at ha hc ⊢
    omega

end IntShape

end Arandu.Library
