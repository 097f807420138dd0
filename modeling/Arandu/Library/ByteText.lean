import Mathlib.Algebra.GroupWithZero.Nat

/-!
# Texts and byte offsets

A text is the list of its characters, while offsets count the bytes of its encoding. An offset
inside of a character splits no text.
-/

namespace Arandu.Library

open List

def byteLen (s : List Char) : Nat := (s.map Char.utf8Size).sum

/-- The text before and after an offset. -/
def splitAtByte : List Char → Nat → Option (List Char × List Char)
  | s, 0 => some ([], s)
  | [], _ + 1 => none
  | c :: s, n + 1 =>
    if n + 1 < c.utf8Size then none
    else (splitAtByte s (n + 1 - c.utf8Size)).map fun p => (c :: p.1, p.2)

@[simp]
lemma byteLen_append (s t : List Char) : byteLen (s ++ t) = byteLen s + byteLen t := by
  simp [byteLen]

@[simp]
lemma byteLen_reverse (s : List Char) : byteLen s.reverse = byteLen s := by
  simp [byteLen, map_reverse]

@[simp]
lemma splitAtByte_append (s t : List Char) : splitAtByte (s ++ t) (byteLen s) = some (s, t) := by
  induction s with
  | nil => cases t <;> rfl
  | cons c s ih =>
    obtain ⟨n, hn⟩ := Nat.exists_eq_succ_of_ne_zero (Nat.ne_of_gt c.utf8Size_pos)
    have hlen : byteLen (c :: s) = n + byteLen s + 1 := by
      simp [byteLen, hn]
      omega
    have hrest : n + byteLen s + 1 - c.utf8Size = byteLen s := by omega
    rw [hlen, cons_append, splitAtByte, hrest, ih, if_neg (by omega)]
    rfl

end Arandu.Library
