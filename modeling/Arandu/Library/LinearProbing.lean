import Mathlib.Data.List.Basic
import Mathlib.Data.Nat.ModEq

/-!
# Linear probing

A circular table of cells. An element has a home cell and a distance from it; it is found by
walking from its home, which works as long as no cell on the way is empty (`Probed`). Taking an
element out leaves a hole (`Holed`), which backward shifts move along until no element needs the
cell where it is.
-/

namespace Arandu.Library

open List Option

variable {E : Type}

/-- The cell with the given number, counted around the table. -/
def cell (b : List (Option E)) (x : Nat) : Option E := (b[x % b.length]?).join

/-- The number of cells in use. -/
def occupied (b : List (Option E)) : Nat := b.countP isSome

section Cells

variable {b : List (Option E)} {x y : Nat} {e : E}

lemma cell_congr (h : x % b.length = y % b.length) : cell b x = cell b y := by
  unfold cell
  rw [h]

lemma cell_mod (b : List (Option E)) (x : Nat) : cell b (x % b.length) = cell b x :=
  cell_congr (Nat.mod_mod x b.length)

lemma cell_eq_getElem? (hx : x < b.length) : b[x]? = some (cell b x) := by
  unfold cell
  rw [Nat.mod_eq_of_lt hx, getElem?_eq_getElem hx]
  rfl

lemma mod_length_lt (hb : b ≠ []) (x : Nat) : x % b.length < b.length :=
  Nat.mod_lt x (length_pos_iff.2 hb)

lemma getElem?_mod_length (hb : b ≠ []) (x : Nat) : b[x % b.length]? = some (cell b x) := by
  rw [cell_eq_getElem? (mod_length_lt hb x), cell_mod]

lemma some_mem_iff_cell : some e ∈ b ↔ ∃ x, cell b x = some e := by
  constructor
  · intro h
    obtain ⟨x, hx, hget⟩ := getElem_of_mem h
    refine ⟨x, some.inj ?_⟩
    rw [← cell_eq_getElem? hx, getElem?_eq_getElem hx, hget]
  · rintro ⟨x, hx⟩
    exact mem_of_getElem? (join_eq_some_iff.1 hx)

lemma cell_replicate (n x : Nat) : cell (List.replicate n (none : Option E)) x = none := by
  cases h : cell (List.replicate n none) x with
  | none => rfl
  | some e => cases (mem_replicate.1 (some_mem_iff_cell.2 ⟨x, h⟩)).2

lemma occupied_replicate (n : Nat) : occupied (List.replicate n (none : Option E)) = 0 :=
  countP_eq_zero.2 fun v hv => by
    rw [(mem_replicate.1 hv).2]
    exact Bool.false_ne_true

lemma ne_nil_of_cell (h : cell b x = some e) : b ≠ [] := by
  rintro rfl
  cases h

lemma offset_inj {n a i j : Nat} (hi : i < n) (hj : j < n) (h : (a + i) % n = (a + j) % n) :
    i = j := by
  have h' : i % n = j % n := Nat.ModEq.add_left_cancel' a h
  rwa [Nat.mod_eq_of_lt hi, Nat.mod_eq_of_lt hj] at h'

lemma exists_offset (hb : b ≠ []) (a x : Nat) :
    ∃ i < b.length, (a + i) % b.length = x % b.length := by
  have hpos := length_pos_iff.2 hb
  have ha := mod_length_lt hb a
  have hsplit := Nat.div_add_mod a b.length
  refine ⟨(x + (b.length - a % b.length)) % b.length, Nat.mod_lt _ hpos, ?_⟩
  have : a + (x + (b.length - a % b.length)) = x + b.length * (a / b.length + 1) := by
    rw [Nat.mul_add]
    omega
  rw [Nat.add_mod_mod, this, Nat.add_mul_mod_self_left]

lemma cell_set (hb : b ≠ []) (v : Option E) :
    cell (b.set (x % b.length) v) y = if y % b.length = x % b.length then v else cell b y := by
  unfold cell
  rw [length_set]
  by_cases h : y % b.length = x % b.length
  · rw [if_pos h, h, getElem?_set_self (mod_length_lt hb x)]
    rfl
  · rw [if_neg h, getElem?_set_ne (Ne.symm h)]

lemma cell_set_set (hb : b ≠ []) (u v : Option E) (z : Nat) :
    cell ((b.set (y % b.length) u).set (x % b.length) v) z =
      if z % b.length = x % b.length then v
      else if z % b.length = y % b.length then u else cell b z := by
  have hb' : b.set (y % b.length) u ≠ [] := by simpa using hb
  have := cell_set (b := b.set (y % b.length) u) (x := x) (y := z) hb' v
  rw [length_set, cell_set hb] at this
  exact this

lemma set_none_self (h : cell b x = none) : b.set (x % b.length) none = b := by
  apply ext_getElem?
  intro i
  rw [getElem?_set]
  split
  next hi =>
    subst hi
    split
    next hlt =>
      have := cell_eq_getElem? hlt
      rw [cell_mod, h] at this
      exact this.symm
    next hge => exact (getElem?_eq_none (not_lt.1 hge)).symm
  next => rfl

lemma occupied_set (hb : b ≠ []) (v : Option E) :
    occupied (b.set (x % b.length) v) + (if (cell b x).isSome then 1 else 0) =
      occupied b + if v.isSome then 1 else 0 := by
  unfold occupied
  have hx := mod_length_lt hb x
  have hcell : cell b x = b[x % b.length] := by
    unfold cell
    rw [getElem?_eq_getElem hx]
    rfl
  rw [countP_set hx, hcell]
  have hpos : (if (b[x % b.length]).isSome = true then 1 else 0) ≤ b.countP isSome := by
    split
    next h =>
      exact countP_pos_iff.2 ⟨_, getElem_mem hx, h⟩
    next => exact Nat.zero_le _
  omega

lemma exists_cell_none (h : occupied b < b.length) : ∃ x < b.length, cell b x = none := by
  have hne : ∃ v ∈ b, ¬ (v.isSome = true) := by
    by_contra hall
    have hfull : ∀ v ∈ b, v.isSome = true := by
      intro v hv
      by_contra hnone
      exact hall ⟨v, hv, hnone⟩
    have := countP_eq_length.2 hfull
    unfold occupied at h
    omega
  obtain ⟨v, hv, hnone⟩ := hne
  obtain ⟨x, hx, rfl⟩ := getElem_of_mem hv
  refine ⟨x, hx, ?_⟩
  unfold cell
  rw [Nat.mod_eq_of_lt hx, getElem?_eq_getElem hx]
  cases hget : b[x] with
  | none => rfl
  | some e =>
    rw [hget] at hnone
    simp at hnone

end Cells

/-! ## Tables without holes -/

variable (home dist : E → Nat)

/-- Elements are at their distance from home, and the cells up to there are in use. -/
structure Probed (b : List (Option E)) : Prop where
  placed : ∀ x e, cell b x = some e →
    dist e < b.length ∧ (home e + dist e) % b.length = x % b.length
  filled : ∀ x e, cell b x = some e → ∀ t ≤ dist e, (cell b (home e + t)).isSome = true

/-- The same but for one empty cell. -/
structure Holed (b : List (Option E)) (hole : Nat) : Prop where
  placed : ∀ x e, cell b x = some e →
    dist e < b.length ∧ (home e + dist e) % b.length = x % b.length
  empty : cell b hole = none
  filled : ∀ x e, cell b x = some e → ∀ t ≤ dist e,
    (home e + t) % b.length = hole % b.length ∨ (cell b (home e + t)).isSome = true

variable {home dist} {b : List (Option E)} {hole : Nat}

section

variable (hp : Probed home dist b) (hb : b ≠ [])

include hp hb

/-- An element enters the first empty cell from its home. -/
lemma Probed.insert {e : E} (hdist : dist e < b.length)
    (hwalk : ∀ t < dist e, (cell b (home e + t)).isSome = true) :
    Probed home dist (b.set ((home e + dist e) % b.length) (some e)) where
  placed x e' he' := by
    rw [cell_set hb] at he'
    rw [length_set]
    split at he'
    next hx =>
      obtain rfl := some.inj he'
      exact ⟨hdist, hx.symm⟩
    next => exact hp.placed x e' he'
  filled x e' he' t ht := by
    rw [cell_set hb] at he' ⊢
    split
    · rfl
    next hother =>
      split at he'
      next hx =>
        obtain rfl := some.inj he'
        rcases Nat.lt_or_eq_of_le ht with ht | rfl
        · exact hwalk t ht
        · exact absurd rfl hother
      next => exact hp.filled x e' he' t ht

/-- An element is replaced by one with the same home and distance. -/
lemma Probed.replace {x : Nat} {e e' : E} (he : cell b x = some e) (hhome : home e' = home e)
    (hdist : dist e' = dist e) : Probed home dist (b.set (x % b.length) (some e')) where
  placed y f hf := by
    rw [cell_set hb] at hf
    rw [length_set]
    split at hf
    next hy =>
      cases hf
      rw [hhome, hdist, hy]
      exact hp.placed x e he
    next => exact hp.placed y f hf
  filled y f hf t ht := by
    rw [cell_set hb] at hf ⊢
    split
    · rfl
    split at hf
    next hy =>
      cases hf
      rw [hhome]
      exact hp.filled x e he t (hdist ▸ ht)
    next => exact hp.filled y f hf t ht

lemma Probed.remove (x : Nat) : Holed home dist (b.set (x % b.length) none) x where
  placed y e he := by
    rw [cell_set hb] at he
    rw [length_set]
    split at he
    · cases he
    · exact hp.placed y e he
  empty := by rw [cell_set hb, if_pos rfl]
  filled y e he t ht := by
    rw [cell_set hb] at he ⊢
    rw [length_set]
    split at he
    · cases he
    · by_cases h : (home e + t) % b.length = x % b.length
      · exact .inl h
      · rw [if_neg h]
        exact .inr (hp.filled y e he t ht)

end

/-- The element after the hole moves into it, one step closer to its home. -/
lemma Holed.shift (hh : Holed home dist b hole) (hb : b ≠ []) {e e' : E}
    (he : cell b (hole + 1) = some e) (haway : dist e ≠ 0) (hhome : home e' = home e)
    (hdist : dist e' = dist e - 1) :
    Holed home dist ((b.set ((hole + 1) % b.length) none).set (hole % b.length) (some e'))
      (hole + 1) := by
  have hcell := cell_set_set (x := hole) (y := hole + 1) hb none (some e')
  have hne : (hole + 1) % b.length ≠ hole % b.length := by
    intro heq
    rw [cell_congr heq, hh.empty] at he
    cases he
  have hlen : ((b.set ((hole + 1) % b.length) none).set (hole % b.length) (some e')).length =
      b.length := by simp
  obtain ⟨hlt, hplace⟩ := hh.placed (hole + 1) e he
  -- the hole is the cell before the one that the element leaves
  have hback : (home e + (dist e - 1)) % b.length = hole % b.length := by
    have hsucc : home e + dist e = home e + (dist e - 1) + 1 := by omega
    rw [hsucc] at hplace
    exact Nat.ModEq.add_right_cancel' 1 hplace
  refine ⟨?_, ?_, ?_⟩
  · intro y f hf
    rw [hcell] at hf
    rw [hlen]
    split at hf
    next hy =>
      cases hf
      rw [hdist, hhome, hy]
      exact ⟨by omega, hback⟩
    next =>
      split at hf
      · cases hf
      · exact hh.placed y f hf
  · rw [hcell, if_neg hne, if_pos rfl]
  · intro y f hf t ht
    rw [hcell] at hf ⊢
    rw [hlen]
    have hold : (home f + t) % b.length = hole % b.length ∨
        (cell b (home f + t)).isSome = true := by
      split at hf
      next =>
        cases hf
        rw [hhome]
        exact hh.filled (hole + 1) e he t (by omega)
      next =>
        split at hf
        · cases hf
        · exact hh.filled y f hf t ht
    by_cases h₁ : (home f + t) % b.length = hole % b.length
    · rw [if_pos h₁]
      exact .inr rfl
    rw [if_neg h₁]
    by_cases h₂ : (home f + t) % b.length = (hole + 1) % b.length
    · exact .inl h₂
    · rw [if_neg h₂]
      exact .inr (hold.resolve_left h₁)

/-- A hole that no element is probed across does no harm. -/
lemma Holed.close (hh : Holed home dist b hole) (hacross : ∀ x e, cell b x = some e → ∀ t < dist e,
      (home e + t) % b.length ≠ hole % b.length) : Probed home dist b where
  placed := hh.placed
  filled x e he t ht := by
    refine (hh.filled x e he t ht).resolve_left fun heq => ?_
    rcases Nat.lt_or_eq_of_le ht with ht | rfl
    · exact hacross x e he t ht heq
    · rw [(hh.placed x e he).2] at heq
      rw [cell_congr heq, hh.empty] at he
      cases he

end Arandu.Library
