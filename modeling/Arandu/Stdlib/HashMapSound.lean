import Arandu.Stdlib.HashMap

/-!
# The hash map as a finite map

A table in which every entry can be probed from its home represents a finite map. Lookups,
insertions, growth and `clear` keep that; a removal keeps it when no entry is probed across the
bucket that its backward shift leaves empty.
-/

namespace Arandu.Stdlib

open Arandu.Library List Option Bindings HashMap Entry

namespace HashMap

variable {K V : Type}

/-! ## Backward shifts -/

/-- An entry one bucket closer to its home. -/
def closer (e : Entry K V) : Entry K V := { e with distance := e.distance - 1 }

/-- The backward shift of a removal at a bucket ends that many buckets further on: the buckets up to
there hold entries away from their homes, and the next one does not. -/
def ShiftEnds (bs : List (Option (Entry K V))) (x r : Nat) : Prop :=
  (∀ i < r, ∃ e ∈ cell bs (x + i + 1), e.distance ≠ 0) ∧
  ∀ e ∈ cell bs (x + r + 1), e.distance = 0

instance (bs : List (Option (Entry K V))) (x r : Nat) : Decidable (ShiftEnds bs x r) :=
  inferInstanceAs (Decidable (_ ∧ _))

def Crosses (bs : List (Option (Entry K V))) (e : Entry K V) (x : Nat) : Prop :=
  ∃ t < e.distance, (e.hash + t) % bs.length = x % bs.length

instance (bs : List (Option (Entry K V))) (e : Entry K V) (x : Nat) : Decidable (Crosses bs e x) :=
  inferInstanceAs (Decidable (∃ t < e.distance, _))

/-- The buckets after some backward shifts of a removal. -/
structure Shifted (bs : List (Option (Entry K V))) (x r : Nat) (cur : List (Option (Entry K V))) :
    Prop where
  length : cur.length = bs.length
  holed : Holed hash distance cur (x + r)
  run : ∀ i < r, ∃ e ∈ cell bs (x + i + 1), e.distance ≠ 0
  layout : ∀ i < bs.length, cell cur (x + i) =
    if i < r then (cell bs (x + i + 1)).map closer else if i = r then none else cell bs (x + i)
  count : occupied cur + 1 = occupied bs

variable {e : Entry K V}

section Shift

variable {bs cur : List (Option (Entry K V))} {x r s y : Nat}

lemma Shifted.start (hp : Probed hash distance bs)
    (he : cell bs x = some e) : Shifted bs x 0 (bs.set (x % bs.length) none) where
  length := length_set
  holed := hp.remove (ne_nil_of_cell he) x
  run i hi := absurd hi (Nat.not_lt_zero i)
  layout i hi := by
    rw [cell_set (ne_nil_of_cell he), if_neg (Nat.not_lt_zero i)]
    by_cases h0 : i = 0
    · rw [if_pos h0, h0]
      exact if_pos rfl
    · rw [if_neg h0, if_neg]
      intro heq
      exact h0 (offset_inj hi (length_pos_iff.2 (ne_nil_of_cell he)) heq)
  count := by
    have := occupied_set (x := x) (ne_nil_of_cell he) none
    rw [he] at this
    exact this

lemma Shifted.step (hs : Shifted bs x r cur) (hr : r + 1 < bs.length)
    (he : cell bs (x + r + 1) = some e) (haway : e.distance ≠ 0) :
    Shifted bs x (r + 1) ((cur.set ((x + r + 1) % bs.length) none).set ((x + r) % bs.length)
      (some (closer e))) := by
  have hlen := hs.length
  have hcur : cell cur (x + r + 1) = some e := by
    have := hs.layout (r + 1) hr
    rw [if_neg (by omega), if_neg (by omega)] at this
    exact this.trans he
  have hb := ne_nil_of_cell hcur
  have hne : (x + r + 1) % bs.length ≠ (x + r) % bs.length := by
    intro heq
    have := offset_inj (a := x) (i := r + 1) (j := r) hr (by omega) heq
    omega
  have hb' : cur.set ((x + r + 1) % cur.length) none ≠ [] := by simpa using hb
  have hset := cell_set_set (x := x + r) (y := x + r + 1) hb none (some (closer e))
  rw [hlen] at hset
  refine ⟨?_, ?_, ?_, ?_, ?_⟩
  · rw [length_set, length_set, hlen]
  · have hshift := @Holed.shift _ _ _ _ _ hs.holed hb e (closer e) hcur haway rfl rfl
    rw [hlen] at hshift
    exact hshift
  · intro i hi
    rcases Nat.lt_succ_iff_lt_or_eq.1 hi with hi | rfl
    · exact hs.run i hi
    · exact ⟨e, he, haway⟩
  · intro i hi
    rw [hset]
    -- the hole, the bucket after it, and the others
    by_cases h₁ : i = r
    · subst h₁
      rw [if_pos rfl, if_pos (Nat.lt_succ_self i), he]
      rfl
    have h₁' : (x + i) % bs.length ≠ (x + r) % bs.length := fun heq =>
      h₁ (offset_inj hi (by omega) heq)
    rw [if_neg h₁']
    by_cases h₂ : i = r + 1
    · subst h₂
      rw [if_neg (lt_irrefl _), if_pos rfl]
      exact if_pos rfl
    · have h₂' : (x + i) % bs.length ≠ (x + r + 1) % bs.length := fun heq =>
        h₂ (offset_inj (j := r + 1) hi hr heq)
      rw [if_neg h₂', if_neg h₂, hs.layout i hi, if_neg h₁]
      exact if_congr (by omega) rfl rfl
  · have h₁ := occupied_set (x := x + r + 1) hb none
    have h₂ := occupied_set (x := x + r) hb' (some (closer e))
    rw [cell_set hb] at h₂
    rw [length_set, hlen, if_neg hne.symm, hs.holed.empty] at h₂
    rw [hlen, hcur] at h₁
    have := hs.count
    simp at h₁ h₂
    omega

lemma Shifted.shiftBack (mask : Nat)
    (hmask : ∀ y, (y % bs.length + 1) &&& mask = (y + 1) % bs.length) (hs : s < bs.length)
    (hnone : cell bs (x + s) = none) (fuel : Nat) (hsh : Shifted bs x r cur) (hrs : r < s)
    (hfuel : s ≤ r + fuel) :
    ∃ r' cur', shiftBack mask fuel cur ((x + r) % bs.length) ((x + r + 1) % bs.length) = some cur' ∧
      Shifted bs x r' cur' ∧ r' < bs.length ∧ ShiftEnds bs x r' := by
  induction fuel generalizing r cur with
  | zero => omega
  | succ fuel ih =>
    have hb : cur ≠ [] := by
      apply ne_nil_of_length_pos
      rw [hsh.length]
      omega
    have hnext : cell cur (x + r + 1) = cell bs (x + r + 1) := by
      have := hsh.layout (r + 1) (by omega)
      rw [if_neg (by omega), if_neg (by omega)] at this
      exact this
    have hget : cur[(x + r + 1) % bs.length]? = some (cell bs (x + r + 1)) := by
      rw [← hnext, ← hsh.length]
      exact getElem?_mod_length hb _
    have hstop : cur.set ((x + r) % bs.length) none = cur := by
      rw [← hsh.length]
      exact set_none_self hsh.holed.empty
    rw [shiftBack, hget]
    cases hcell : cell bs (x + r + 1) with
    | none =>
      refine ⟨r, cur, congrArg some hstop, hsh, by omega, hsh.run, ?_⟩
      intro e he
      rw [hcell] at he
      cases he
    | some e =>
      dsimp only
      split
      next hhome =>
        refine ⟨r, cur, congrArg some hstop, hsh, by omega, hsh.run, ?_⟩
        intro e' he'
        rw [hcell] at he'
        obtain rfl := some.inj he'
        exact hhome
      next haway =>
        rw [hmask]
        have hlt : r + 1 < s := by
          rcases Nat.lt_or_eq_of_le (Nat.succ_le_of_lt hrs) with h | h
          · exact h
          · rw [← h] at hnone
            rw [show x + r + 1 = x + r.succ from rfl, hnone] at hcell
            cases hcell
        exact ih (hsh.step (by omega) hcell haway) hlt (by omega)

lemma Shifted.origin (hs : Shifted bs x r cur) (hr : r < bs.length) (he : cell cur y = some e) :
    ∃ i < bs.length, i ≠ 0 ∧ ∃ e₀, cell bs (x + i) = some e₀ ∧ e₀.hash = e.hash ∧ e₀.key = e.key ∧
      e₀.value = e.value ∧ e.distance ≤ e₀.distance ∧
      (x + (if i ≤ r then i - 1 else i)) % bs.length = y % bs.length := by
  have hlen := hs.length
  obtain ⟨i, hi, hy⟩ := exists_offset (ne_nil_of_cell he) x y
  rw [← cell_congr hy] at he
  rw [hlen] at hi hy
  rw [hs.layout i hi] at he
  split at he
  next hir =>
    obtain ⟨e₀, he₀, rfl⟩ := map_eq_some_iff.1 he
    refine ⟨i + 1, by omega, by omega, e₀, he₀, rfl, rfl, rfl, Nat.sub_le _ _, ?_⟩
    rw [if_pos (by omega)]
    exact hy
  next hir =>
    split at he
    · cases he
    next hne =>
      refine ⟨i, hi, by omega, e, he, rfl, rfl, rfl, le_rfl, ?_⟩
      rw [if_neg (by omega)]
      exact hy

lemma Shifted.kept (hs : Shifted bs x r cur)
    (he : cell bs y = some e) (hy : y % bs.length ≠ x % bs.length) :
    ∃ z e', cell cur z = some e' ∧ e'.key = e.key ∧ e'.value = e.value := by
  obtain ⟨i, hi, hxy⟩ := exists_offset (ne_nil_of_cell he) x y
  rw [← cell_congr hxy] at he
  have h0 : i ≠ 0 := by
    rintro rfl
    exact hy hxy.symm
  rcases Nat.lt_or_ge r i with hri | hri
  · have := hs.layout i hi
    rw [if_neg (by omega), if_neg (by omega), he] at this
    exact ⟨x + i, e, this, rfl, rfl⟩
  · obtain ⟨j, rfl⟩ := Nat.exists_eq_succ_of_ne_zero h0
    have := hs.layout j (by omega)
    rw [if_pos (by omega), show x + j + 1 = x + j.succ from rfl, he] at this
    exact ⟨x + j, closer e, this, rfl, rfl⟩

end Shift

variable [HashKey K]

/-! ## Tables -/

/-- What every map satisfies whose entries can all be found. -/
structure Inv (m : HashMap K V) : Prop where
  shape : m.buckets = [] ∨ ∃ k, 3 ≤ k ∧ m.buckets.length = 2 ^ k ∧ m.mask = 2 ^ k - 1
  probed : Probed hash distance m.buckets
  hashes : ∀ x e, cell m.buckets x = some e → e.hash = hashKey e.key
  keys : ∀ x y e e', cell m.buckets x = some e → cell m.buckets y = some e' →
    HashKey.eq e.key e'.key = true → x % m.buckets.length = y % m.buckets.length
  count : m.len = occupied m.buckets

/-- The key has the value in some bucket. -/
def Stored (m : HashMap K V) (k : K) (v : V) : Prop :=
  ∃ x e, cell m.buckets x = some e ∧ HashKey.eq e.key k = true ∧ e.value = v

/-- The map has the bindings of a finite map. -/
structure Represents (m : HashMap K V) (b : Bindings K V) : Prop where
  inv : m.Inv
  distinct : b.Distinct
  length : m.len = b.length
  stored : ∀ k v, b.lookup k = some v ↔ m.Stored k v

/-- The load that `insertEntry` keeps. -/
def Loaded (m : HashMap K V) : Prop := m.len ≤ m.buckets.length - m.buckets.length / 4

variable {m : HashMap K V} {b : Bindings K V} {x r k : Nat}

section

variable (hi : m.Inv) (hb : m.buckets ≠ [])

include hi hb

lemma Inv.and_mask (x : Nat) : x &&& m.mask = x % m.buckets.length := by
  obtain hnil | ⟨k, -, hlen, hmask⟩ := hi.shape
  · exact absurd hnil hb
  · rw [hmask, hlen]
    exact Nat.and_two_pow_sub_one_eq_mod x k

lemma Inv.next (x : Nat) : (x % m.buckets.length + 1) &&& m.mask = (x + 1) % m.buckets.length := by
  rw [hi.and_mask hb]
  exact Nat.mod_add_mod x m.buckets.length 1

lemma Inv.eight_le : 8 ≤ m.buckets.length := by
  obtain hnil | ⟨k, hk, hlen, -⟩ := hi.shape
  · exact absurd hnil hb
  · rw [hlen]
    exact Nat.pow_le_pow_right (n := 2) (by decide) hk

end

lemma Inv.exists_empty (hi : m.Inv) (hl : m.Loaded) (hb : m.buckets ≠ []) :
    ∃ x < m.buckets.length, cell m.buckets x = none := by
  apply exists_cell_none
  have h8 := hi.eight_le hb
  have hcount := hi.count
  unfold Loaded at hl
  omega

lemma Inv.matches_iff (hi : m.Inv) (he : cell m.buckets x = some e)
    (key : K) : Entry.matches e (hashKey key) key = true ↔ HashKey.eq e.key key = true := by
  unfold Entry.matches
  rw [Bool.and_eq_true, beq_iff_eq]
  constructor
  · exact And.right
  · intro heq
    exact ⟨(hi.hashes x e he).trans (HashKey.hashKey_eq e.key key heq), heq⟩

/-! ## Lookup -/

variable {key : K}

lemma find_sound (hb : m.buckets ≠ []) (hi : m.Inv) {h : Nat} {i : Nat}
    (fuel x : Nat) (hfind : m.find h key fuel (x % m.buckets.length) = some (i, e)) :
    i < m.buckets.length ∧ cell m.buckets i = some e ∧ HashKey.eq e.key key = true := by
  induction fuel generalizing x with
  | zero => cases hfind
  | succ fuel ih =>
    rw [find, getElem?_mod_length hb] at hfind
    cases hcell : cell m.buckets x with
    | none =>
      rw [hcell] at hfind
      cases hfind
    | some e' =>
      rw [hcell] at hfind
      dsimp only at hfind
      split at hfind
      next hmatch =>
        cases hfind
        refine ⟨mod_length_lt hb x, ?_, ?_⟩
        · rw [cell_mod]
          exact hcell
        · unfold Entry.matches at hmatch
          exact (Bool.and_eq_true_iff.1 hmatch).2
      next =>
        rw [hi.next hb] at hfind
        exact ih (x + 1) hfind

lemma find_complete (hi : m.Inv)
    (he : cell m.buckets x = some e) (hkey : HashKey.eq e.key key = true) (s : Nat)
    (hs : s ≤ e.distance) (fuel : Nat) (hfuel : s < fuel) :
    m.find (hashKey key) key fuel ((hashKey key + (e.distance - s)) % m.buckets.length) =
      some (x % m.buckets.length, e) := by
  have hb := ne_nil_of_cell he
  have hhash : e.hash = hashKey key :=
    (hi.hashes x e he).trans (HashKey.hashKey_eq e.key key hkey)
  obtain ⟨hlt, hplace⟩ := hi.probed.placed x e he
  rw [hhash] at hplace
  -- by induction on the number of buckets still to be passed
  induction s generalizing fuel with
  | zero =>
    obtain ⟨fuel, rfl⟩ := Nat.exists_eq_add_of_lt hfuel
    rw [Nat.sub_zero, hplace, find, getElem?_mod_length hb, he]
    exact if_pos ((hi.matches_iff he key).2 hkey)
  | succ s ih =>
    obtain ⟨fuel, rfl⟩ : ∃ n, fuel = n + 1 := ⟨fuel - 1, by omega⟩
    rw [find, getElem?_mod_length hb]
    have hfilled := hi.probed.filled x e he (e.distance - (s + 1)) (Nat.sub_le _ _)
    rw [hhash] at hfilled
    obtain ⟨e', he'⟩ := isSome_iff_exists.1 hfilled
    rw [he']
    dsimp only
    have hother : ¬ Entry.matches e' (hashKey key) key = true := by
      intro hmatch
      have heq := HashKey.eq_trans e'.key key e.key ((hi.matches_iff he' key).1 hmatch)
        (HashKey.eq_symm e.key key hkey)
      have hsame := hi.keys _ _ e' e he' he heq
      rw [← hplace] at hsame
      have := offset_inj (by omega) hlt hsame
      omega
    have hstep : hashKey key + (e.distance - (s + 1)) + 1 = hashKey key + (e.distance - s) := by
      omega
    rw [if_neg hother, hi.next hb, hstep]
    exact ih (by omega) fuel (by omega)

lemma Inv.findKey_iff (hi : m.Inv) (key : K) (i : Nat) (e : Entry K V) :
    m.findKey key = some (i, e) ↔
      i < m.buckets.length ∧ cell m.buckets i = some e ∧ HashKey.eq e.key key = true := by
  unfold findKey
  constructor
  · intro hfind
    split at hfind
    · cases hfind
    next hne =>
      have hb : m.buckets ≠ [] := fun h => hne (length_eq_zero_iff.2 h)
      rw [hi.and_mask hb] at hfind
      exact find_sound hb hi _ _ hfind
  · intro ⟨hlt, hcell, hkey⟩
    have hb := ne_nil_of_cell hcell
    rw [if_neg (fun h => hb (length_eq_zero_iff.1 h)), hi.and_mask hb]
    have := find_complete hi hcell hkey e.distance le_rfl m.buckets.length
      (hi.probed.placed i e hcell).1
    rw [Nat.sub_self, Nat.add_zero, Nat.mod_eq_of_lt hlt] at this
    exact this

lemma Inv.findKey_value (hi : m.Inv) (key : K) (v : V) :
    (m.findKey key).map (fun p => p.2.value) = some v ↔ m.Stored key v := by
  rw [map_eq_some_iff]
  constructor
  · rintro ⟨⟨i, e⟩, hfind, hv⟩
    obtain ⟨-, hcell, hkey⟩ := (hi.findKey_iff key i e).1 hfind
    exact ⟨i, e, hcell, hkey, hv⟩
  rintro ⟨x, e, hcell, hkey, hv⟩
  refine ⟨(x % m.buckets.length, e), (hi.findKey_iff key _ e).2 ⟨?_, ?_, hkey⟩, hv⟩
  · exact mod_length_lt (ne_nil_of_cell hcell) x
  · rw [cell_mod]
    exact hcell

variable (hr : m.Represents b)

include hr in
lemma Represents.get_eq (key : K) : m.get key = b.lookup key := by
  apply Option.ext
  intro v
  show (m.findKey key).map (fun p => p.2.value) = some v ↔ b.lookup key = some v
  rw [hr.inv.findKey_value, hr.stored]

include hr in
lemma Represents.contains_eq (key : K) : m.contains key = (b.lookup key).isSome := by
  rw [← hr.get_eq]
  show (m.findKey key).isSome = ((m.findKey key).map _).isSome
  rw [isSome_map]

/-! ## Placing an entry -/

def Passed (m : HashMap K V) (key : K) (d : Nat) : Prop :=
  ∀ i < d, ∃ e, cell m.buckets (hashKey key + i) = some e ∧ HashKey.eq e.key key = false

/-- The loop of `insertEntry` ends at the first empty bucket or at the entry of the key. -/
lemma Inv.place_cases (hi : m.Inv) (hempty : ∃ x < m.buckets.length, cell m.buckets x = none)
    (key : K) (val : V) (fuel d : Nat) (hfuel : fuel + d = m.buckets.length)
    (hpassed : m.Passed key d) : ∃ d' < m.buckets.length, m.Passed key d' ∧
      ((cell m.buckets (hashKey key + d') = none ∧
        m.place (hashKey key) key val fuel ((hashKey key + d) % m.buckets.length) d = ({ m with
              buckets := m.buckets.set ((hashKey key + d') % m.buckets.length)
                (some ⟨hashKey key, key, val, d'⟩)
              len := m.len + 1 }, none)) ∨
      ∃ e, cell m.buckets (hashKey key + d') = some e ∧ HashKey.eq e.key key = true ∧
        m.place (hashKey key) key val fuel ((hashKey key + d) % m.buckets.length) d =
          ({ m with
              buckets := m.buckets.set ((hashKey key + d') % m.buckets.length)
                (some ⟨hashKey key, key, val, d'⟩) }, some e.value)) := by
  obtain ⟨x, hx, hnone⟩ := hempty
  have hb : m.buckets ≠ [] := by
    intro hnil
    rw [hnil] at hx
    cases hx
  induction fuel generalizing d with
  | zero =>
    -- a whole turn would have passed over the empty bucket
    exfalso
    have hd : d = m.buckets.length := by omega
    obtain ⟨i, hi', hxi⟩ := exists_offset hb (hashKey key) x
    obtain ⟨e, he, -⟩ := hpassed i (hd ▸ hi')
    rw [cell_congr hxi, hnone] at he
    cases he
  | succ fuel ih =>
    rw [place, getElem?_mod_length hb]
    cases hcell : cell m.buckets (hashKey key + d) with
    | none => exact ⟨d, by omega, hpassed, .inl ⟨hcell, rfl⟩⟩
    | some e =>
      dsimp only
      cases hkey : HashKey.eq e.key key with
      | true =>
        rw [if_pos ((hi.matches_iff hcell key).2 hkey)]
        exact ⟨d, by omega, hpassed, .inr ⟨e, hcell, hkey, rfl⟩⟩
      | false =>
        have hother : ¬ Entry.matches e (hashKey key) key = true := by
          rw [hi.matches_iff hcell key, hkey]
          decide
        rw [if_neg hother, hi.next hb]
        apply ih (d + 1) (by omega)
        intro i hid
        rcases Nat.lt_succ_iff_lt_or_eq.1 hid with hid | rfl
        · exact hpassed i hid
        · exact ⟨e, hcell, hkey⟩

lemma Inv.absent (hi : m.Inv) {d : Nat} (hpassed : m.Passed key d)
    (hnone : cell m.buckets (hashKey key + d) = none) {y : Nat}
    (he : cell m.buckets y = some e) : HashKey.eq e.key key = false := by
  cases hkey : HashKey.eq e.key key with
  | false => rfl
  | true =>
    have hhash : e.hash = hashKey key :=
      (hi.hashes y e he).trans (HashKey.hashKey_eq e.key key hkey)
    have hplace := (hi.probed.placed y e he).2
    rw [hhash] at hplace
    rcases Nat.lt_or_ge e.distance d with hlt | hge
    · obtain ⟨e', he', hother⟩ := hpassed e.distance hlt
      rw [cell_congr hplace, he] at he'
      obtain rfl := some.inj he'
      rw [hkey] at hother
      exact hother
    · have := hi.probed.filled y e he d hge
      rw [hhash, hnone] at this
      cases this

section Put

variable {x : Nat} {f : Entry K V}

/-- Whatever bucket holds the key of an entry is the one the entry is put into. -/
def Reserved (m : HashMap K V) (x : Nat) (key : K) : Prop :=
  ∀ y e, cell m.buckets y = some e → HashKey.eq e.key key = true →
    y % m.buckets.length = x % m.buckets.length

lemma keys_set (hi : m.Inv) (hb : m.buckets ≠ []) (hres : m.Reserved x f.key) (y z : Nat)
    (e e' : Entry K V) (he : cell (m.buckets.set (x % m.buckets.length) (some f)) y = some e)
    (he' : cell (m.buckets.set (x % m.buckets.length) (some f)) z = some e')
    (heq : HashKey.eq e.key e'.key = true) : y % m.buckets.length = z % m.buckets.length := by
  rw [cell_set hb] at he he'
  split at he
  next hy =>
    cases he
    split at he'
    next hz => rw [hy, hz]
    next => rw [hy, hres z e' he' (HashKey.eq_symm _ _ heq)]
  next =>
    split at he'
    next hz =>
      obtain rfl := some.inj he'
      rw [hz, hres y e he heq]
    next => exact hi.keys y z e e' he he' heq

lemma hashes_set (hi : m.Inv) (hb : m.buckets ≠ []) (hhash : f.hash = hashKey f.key) (y : Nat)
    (e : Entry K V) (he : cell (m.buckets.set (x % m.buckets.length) (some f)) y = some e) :
    e.hash = hashKey e.key := by
  rw [cell_set hb] at he
  split at he
  · cases he
    exact hhash
  · exact hi.hashes y e he

lemma stored_set (hb : m.buckets ≠ []) (hres : m.Reserved x f.key)
    (hold : ∀ e, cell m.buckets x = some e → HashKey.eq e.key f.key = true) (n : Nat) (k : K)
    (v : V) :
    Stored { m with buckets := m.buckets.set (x % m.buckets.length) (some f), len := n } k v ↔
      if HashKey.eq f.key k then f.value = v else m.Stored k v := by
  have hcell (y : Nat) := cell_set (y := y) (x := x) hb (some f)
  cases hk : HashKey.eq f.key k with
  | true =>
    constructor
    · rintro ⟨y, e, he, hkey, hv⟩
      rw [hcell] at he
      split at he
      next =>
        cases he
        exact hv
      next hy =>
        exact absurd (hres y e he (HashKey.eq_trans _ _ _ hkey (HashKey.eq_symm _ _ hk))) hy
    · intro hv
      refine ⟨x, f, ?_, hk, hv⟩
      rw [hcell, if_pos rfl]
  | false =>
    constructor
    · rintro ⟨y, e, he, hkey, hv⟩
      rw [hcell] at he
      split at he
      next =>
        cases he
        rw [hk] at hkey
        cases hkey
      next => exact ⟨y, e, he, hkey, hv⟩
    · rintro ⟨y, e, he, hkey, hv⟩
      refine ⟨y, e, ?_, hkey, hv⟩
      rw [hcell, if_neg, he]
      -- the entry in the bucket has the other key
      intro hy
      have := hold e ((cell_congr hy).symm.trans he)
      have := HashKey.eq_trans _ _ _ (HashKey.eq_symm _ _ this) hkey
      rw [hk] at this
      cases this

include hr in
lemma Represents.put (hb : m.buckets ≠ []) (hres : m.Reserved x f.key)
    (hold : ∀ e, cell m.buckets x = some e → HashKey.eq e.key f.key = true)
    (hhash : f.hash = hashKey f.key) (hprobed : Probed hash distance
      (m.buckets.set (x % m.buckets.length) (some f))) {n : Nat}
    (hn : n + (if (cell m.buckets x).isSome then 1 else 0) = m.len + 1) :
    Represents { m with buckets := m.buckets.set (x % m.buckets.length) (some f), len := n }
      (b.insert f.key f.value) where
  inv := by
    refine ⟨?_, hprobed, hashes_set hr.inv hb hhash, ?_, ?_⟩
    · obtain hnil | ⟨k, hk, hlen, hmask⟩ := hr.inv.shape
      · exact absurd hnil hb
      · exact .inr ⟨k, hk, by rw [length_set, hlen], hmask⟩
    · intro y z e e' he he' heq
      rw [length_set]
      exact keys_set hr.inv hb hres y z e e' he he' heq
    · have hcount := occupied_set (x := x) hb (some f)
      have := hr.inv.count
      show n = occupied (m.buckets.set (x % m.buckets.length) (some f))
      rw [isSome_some, if_pos rfl] at hcount
      omega
  distinct := hr.distinct.insert _ _
  length := by
    have hlen := length_insert hr.distinct f.key f.value
    have hfind : (b.lookup f.key).isSome = (cell m.buckets x).isSome := by
      rw [Bool.eq_iff_iff, isSome_iff_exists, isSome_iff_exists]
      constructor
      · rintro ⟨v, hv⟩
        obtain ⟨y, e, he, hkey, -⟩ := (hr.stored _ v).1 hv
        rw [cell_congr (hres y e he hkey)] at he
        exact ⟨e, he⟩
      · rintro ⟨e, he⟩
        exact ⟨e.value, (hr.stored _ _).2 ⟨x, e, he, hold e he, rfl⟩⟩
    rw [hfind] at hlen
    have := hr.length
    show n = (b.insert f.key f.value).length
    omega
  stored k v := by
    rw [stored_set hb hres hold, lookup_insert]
    split
    · exact some_inj
    · exact hr.stored k v

end Put

include hr in
lemma Represents.place
    (hempty : ∃ x < m.buckets.length, cell m.buckets x = none) (key : K) (val : V) :
    ∃ m', m.place (hashKey key) key val m.buckets.length (hashKey key &&& m.mask) 0 =
        (m', b.lookup key) ∧
      m'.Represents (b.insert key val) ∧ m'.buckets.length = m.buckets.length := by
  have hi := hr.inv
  have hb : m.buckets ≠ [] := by
    obtain ⟨x, hx, -⟩ := hempty
    exact length_pos_iff.1 (Nat.zero_lt_of_lt hx)
  obtain ⟨d, hd, hpassed, ⟨hnone, hplace⟩ | ⟨e, he, hkey, hplace⟩⟩ :=
    hi.place_cases hempty key val m.buckets.length 0 rfl (fun i h => absurd h (Nat.not_lt_zero i))
  · -- the key is new
    rw [Nat.add_zero] at hplace
    have hlookup : b.lookup key = none := by
      rw [eq_none_iff_forall_ne_some]
      intro v hv
      obtain ⟨y, e, he, hkey, -⟩ := (hr.stored key v).1 hv
      rw [hi.absent hpassed hnone he] at hkey
      cases hkey
    rw [hi.and_mask hb, hplace, hlookup]
    refine ⟨_, rfl, ?_, length_set⟩
    refine hr.put (f := ⟨hashKey key, key, val, d⟩) hb ?_ ?_ rfl ?_ ?_
    · intro y e he hkey
      rw [hi.absent hpassed hnone he] at hkey
      cases hkey
    · intro e he
      rw [hnone] at he
      cases he
    · refine Probed.insert (e := ⟨hashKey key, key, val, d⟩) hi.probed hb hd ?_
      intro t ht
      obtain ⟨e, he, -⟩ := hpassed t ht
      show (cell m.buckets (hashKey key + t)).isSome = true
      rw [he]
      rfl
    · rw [hnone]
      rfl
  · -- the entry of the key is replaced
    rw [Nat.add_zero] at hplace
    have hlookup : b.lookup key = some e.value := (hr.stored key e.value).2 ⟨_, e, he, hkey, rfl⟩
    have hhash : e.hash = hashKey key :=
      (hi.hashes _ e he).trans (HashKey.hashKey_eq e.key key hkey)
    have hdist : d = e.distance := by
      obtain ⟨hlt, hat⟩ := hi.probed.placed _ e he
      rw [hhash] at hat
      exact (offset_inj hlt hd hat).symm
    rw [hi.and_mask hb, hplace, hlookup]
    refine ⟨_, rfl, ?_, length_set⟩
    refine hr.put (f := ⟨hashKey key, key, val, d⟩) hb ?_ ?_ rfl ?_ ?_
    · intro y e' he' hkey'
      exact hi.keys y _ e' e he' he (HashKey.eq_trans _ _ _ hkey' (HashKey.eq_symm _ _ hkey))
    · intro e' he'
      rw [he] at he'
      obtain rfl := some.inj he'
      exact hkey
    · exact hi.probed.replace hb he hhash.symm hdist
    · rw [he]
      rfl

/-! ## Growth -/

variable (slots : List (Option (Entry K V)))

/-- The finite map after the entries of some buckets are inserted one after the other. -/
def insertAll (b : Bindings K V) : Bindings K V :=
  slots.foldl (fun b slot =>
    match slot with
    | some e => b.insert e.key e.value
    | none => b) b

def KeysApart : Prop :=
  slots.Pairwise fun s t => ∀ e e', s = some e → t = some e' → HashKey.eq e.key e'.key = false

lemma Inv.keysApart (hi : m.Inv) : KeysApart m.buckets := by
  refine pairwise_iff_getElem.2 fun i j hi' hj' hij e e' he he' => ?_
  cases heq : HashKey.eq e.key e'.key with
  | false => rfl
  | true =>
    have hcell {i : Nat} (h : i < m.buckets.length) {e : Entry K V}
        (he : m.buckets[i] = some e) : cell m.buckets i = some e := by
      apply some.inj
      rw [← cell_eq_getElem? h, getElem?_eq_getElem h, he]
    have := hi.keys i j e e' (hcell hi' he) (hcell hj' he') heq
    rw [Nat.mod_eq_of_lt hi', Nat.mod_eq_of_lt hj'] at this
    omega

variable {slots cur : List (Option (Entry K V))}

/-- A key has its value in the buckets, or else in the map they are inserted into. -/
lemma lookup_insertAll (hd : KeysApart slots) (b : Bindings K V) (k : K) (v : V) :
    (insertAll slots b).lookup k = some v ↔
      (∃ e, some e ∈ slots ∧ HashKey.eq e.key k = true ∧ e.value = v) ∨
      (b.lookup k = some v ∧ ∀ e, some e ∈ slots → HashKey.eq e.key k = false) := by
  induction slots generalizing b with
  | nil => simp [insertAll]
  | cons slot slots ih =>
    obtain ⟨hslot, htail⟩ := pairwise_cons.1 hd
    cases slot with
    | none =>
      show (insertAll slots b).lookup k = some v ↔ _
      rw [ih htail]
      simp
    | some e =>
      show (insertAll slots (b.insert e.key e.value)).lookup k = some v ↔ _
      rw [ih htail, lookup_insert]
      cases hk : HashKey.eq e.key k with
      | false => simp [hk]
      | true =>
        -- the remaining buckets do not have the key of this one
        have hrest (e' : Entry K V) (he' : some e' ∈ slots) : HashKey.eq e'.key k = false := by
          cases hk' : HashKey.eq e'.key k with
          | false => rfl
          | true =>
            have := hslot (some e') he' e e' rfl rfl
            rw [HashKey.eq_trans _ _ _ hk (HashKey.eq_symm _ _ hk')] at this
            cases this
        constructor
        · rintro (⟨e', he', hk', hv⟩ | ⟨hv, -⟩)
          · rw [hrest e' he'] at hk'
            cases hk'
          · exact .inl ⟨e, mem_cons_self, hk, some.inj hv⟩
        · rintro (⟨e', he', hk', hv⟩ | ⟨-, hnone⟩)
          · rcases mem_cons.1 he' with he' | he'
            · obtain rfl := some.inj he'
              exact .inr ⟨by rw [if_pos rfl, hv], hrest⟩
            · rw [hrest e' he'] at hk'
              cases hk'
          · have := hnone e mem_cons_self
            rw [hk] at this
            cases this

lemma length_insertAll (hd : KeysApart slots) {b : Bindings K V} (hb : b.Distinct)
    (hfresh : ∀ e, some e ∈ slots → b.lookup e.key = none) :
    (insertAll slots b).length = b.length + occupied slots := by
  induction slots generalizing b with
  | nil => rfl
  | cons slot slots ih =>
    obtain ⟨hslot, htail⟩ := pairwise_cons.1 hd
    have hmem (e : Entry K V) (he : some e ∈ slots) := hfresh e (mem_cons_of_mem _ he)
    cases slot with
    | none =>
      show (insertAll slots b).length = b.length + occupied (none :: slots)
      rw [ih htail hb hmem]
      rfl
    | some e =>
      show (insertAll slots (b.insert e.key e.value)).length = _
      have hlen := length_insert hb e.key e.value
      rw [hfresh e mem_cons_self] at hlen
      rw [ih htail (hb.insert _ _), occupied, occupied, countP_cons_of_pos rfl]
      · simp at hlen
        omega
      · intro e' he'
        rw [lookup_insert, if_neg, hmem e' he']
        rw [hslot (some e') he' e e' rfl rfl]
        decide

include hr in
/-- Entries are inserted into a table with room for all of them, which does not grow again. -/
lemma Represents.reinsert
    (hhash : ∀ e, some e ∈ slots → e.hash = hashKey e.key) (hb : m.buckets ≠ [])
    (hroom : b.length + occupied slots < m.buckets.length - m.buckets.length / 4 + 1)
    (depth : Nat) :
    ∃ m', slots.foldlM (fun m slot =>
          match slot with
          | some e => (insertEntry (depth + 1) m e.key e.value e.hash).map Prod.fst
          | none => some m) m = some m' ∧
      m'.Represents (insertAll slots b) ∧ m'.buckets.length = m.buckets.length := by
  induction slots generalizing m b with
  | nil => exact ⟨m, rfl, hr, rfl⟩
  | cons slot slots ih =>
    have hmem (e : Entry K V) (he : some e ∈ slots) := hhash e (mem_cons_of_mem _ he)
    rw [foldlM_cons]
    cases slot with
    | none => exact ih hr hmem hb hroom
    | some e =>
      rw [occupied, countP_cons_of_pos rfl] at hroom
      have hlen := hr.length
      have hsmall : ¬ (m.buckets.length = 0 ∨ m.buckets.length - m.buckets.length / 4 ≤ m.len) := by
        omega
      have hempty := hr.inv.exists_empty (by unfold Loaded; omega) hb
      obtain ⟨m', hplace, hr', hlen'⟩ := hr.place hempty e.key e.value
      have hstep : insertEntry (depth + 1) m e.key e.value e.hash = some (m', b.lookup e.key) := by
        rw [insertEntry]
        rw [if_neg hsmall, hhash e mem_cons_self]
        exact congrArg some hplace
      dsimp only
      rw [hstep]
      have hgrow := length_insert hr.distinct e.key e.value
      have hb' : m'.buckets ≠ [] := by
        rw [← length_pos_iff, hlen']
        omega
      obtain ⟨m'', hfold, hr'', hlen''⟩ := ih hr' hmem hb' (by
        unfold occupied
        omega)
      exact ⟨m'', hfold, hr'', hlen''.trans hlen'⟩

lemma represents_of_vacant
    (hshape : m.buckets = [] ∨ ∃ k, 3 ≤ k ∧ m.buckets.length = 2 ^ k ∧ m.mask = 2 ^ k - 1)
    (hvacant : ∀ x, cell m.buckets x = none) (hcount : occupied m.buckets = 0) (hlen : m.len = 0) :
    m.Represents [] := by
  have hcell (x : Nat) (e : Entry K V) : ¬ cell m.buckets x = some e := by
    rw [hvacant]
    exact nofun
  refine ⟨⟨hshape, ⟨?_, ?_⟩, ?_, ?_, hlen.trans hcount.symm⟩, Pairwise.nil, hlen, ?_⟩
  · exact fun x e he => absurd he (hcell x e)
  · exact fun x e he => absurd he (hcell x e)
  · exact fun x e he => absurd he (hcell x e)
  · exact fun x y e e' he => absurd he (hcell x e)
  · intro key v
    constructor
    · exact nofun
    · rintro ⟨x, e, he, -⟩
      exact absurd he (hcell x e)

lemma represents_empty (hk : 3 ≤ k) :
    Represents (⟨replicate (2 ^ k) none, 0, 2 ^ k - 1⟩ : HashMap K V) [] :=
  represents_of_vacant (.inr ⟨k, hk, length_replicate, rfl⟩) (cell_replicate _)
    (occupied_replicate _) rfl

lemma Inv.grown_length (hi : m.Inv) :
    ∃ k, 3 ≤ k ∧ (if 0 < m.buckets.length then m.buckets.length * 2 else 8) = 2 ^ k := by
  obtain hnil | ⟨k, hk, hlen, -⟩ := hi.shape
  · exact ⟨3, Nat.le_refl 3, by rw [hnil]; rfl⟩
  · refine ⟨k + 1, Nat.le_succ_of_le hk, ?_⟩
    rw [hlen, if_pos (Nat.two_pow_pos k), Nat.pow_succ]

include hr in
lemma Represents.resize (hcap : m.buckets.length < maxBuckets)
    (depth : Nat) : ∃ m', HashMap.resize (insertEntry (depth + 1)) m = some m' ∧ m'.Represents b ∧
      m'.buckets ≠ [] ∧ m'.len < m'.buckets.length - m'.buckets.length / 4 := by
  obtain ⟨k, hk, hnew⟩ := hr.inv.grown_length
  have hocc : occupied m.buckets ≤ m.buckets.length := countP_le_length
  have h8 : 8 ≤ 2 ^ k := Nat.pow_le_pow_right (n := 2) (by decide) hk
  have hdouble : m.buckets.length * 2 ≤ 2 ^ k := by
    rw [← hnew]
    split <;> omega
  have hempty : (⟨replicate (2 ^ k) none, 0, 2 ^ k - 1⟩ : HashMap K V).Represents [] :=
    represents_empty hk
  have hlen : (replicate (2 ^ k) (none : Option (Entry K V))).length = 2 ^ k :=
    length_replicate
  have hhash (e : Entry K V) (he : some e ∈ m.buckets) : e.hash = hashKey e.key := by
    obtain ⟨x, hx⟩ := some_mem_iff_cell.1 he
    exact hr.inv.hashes x e hx
  obtain ⟨m', hfold, hr', hlen'⟩ := hempty.reinsert hhash
    (ne_nil_of_length_pos (by rw [hlen]; omega))
    (by
      rw [hlen]
      show 0 + occupied m.buckets < _
      omega) depth
  have hlen' : m'.buckets.length = 2 ^ k := hlen'.trans hlen
  have hsize : m'.len = m.len := by
    rw [hr'.length, length_insertAll hr.inv.keysApart Pairwise.nil (fun _ _ => rfl), hr.inv.count]
    exact Nat.zero_add _
  refine ⟨m', ?_, ⟨hr'.inv, hr.distinct, hsize.trans hr.length, ?_⟩, ?_, ?_⟩
  · unfold HashMap.resize
    rw [if_neg (by omega), hnew]
    exact hfold
  · -- the entries are those of the old buckets
    intro key v
    rw [← hr'.stored key v, lookup_insertAll hr.inv.keysApart, hr.stored]
    constructor
    · rintro ⟨x, e, he, hkey, hv⟩
      exact .inl ⟨e, some_mem_iff_cell.2 ⟨x, he⟩, hkey, hv⟩
    · rintro (⟨e, he, hkey, hv⟩ | ⟨hnone, -⟩)
      · obtain ⟨x, hx⟩ := some_mem_iff_cell.1 he
        exact ⟨x, e, hx, hkey, hv⟩
      · cases hnone
  · apply ne_nil_of_length_pos
    omega
  · have := hr.inv.count
    omega

include hr in
lemma Represents.insert
    (hroom : maxBuckets ≤ m.buckets.length → m.len < m.buckets.length - m.buckets.length / 4)
    (key : K) (val : V) :
    ∃ m', m.insert key val = some (m', b.lookup key) ∧ m'.Represents (b.insert key val) ∧
      m'.Loaded := by
  -- after the table has grown if it must
  have hgrown : ∃ m₁, (if m.buckets.length = 0 ∨ m.buckets.length - m.buckets.length / 4 ≤ m.len
      then HashMap.resize (insertEntry 1) m else some m) = some m₁ ∧ m₁.Represents b ∧
      m₁.buckets ≠ [] ∧ m₁.len < m₁.buckets.length - m₁.buckets.length / 4 := by
    split
    next hfull =>
      apply hr.resize
      by_contra hmax
      have : 0 < maxBuckets := by decide
      omega
    next hsmall =>
      refine ⟨m, rfl, hr, ?_, ?_⟩
      · intro hnil
        exact hsmall (.inl (length_eq_zero_iff.2 hnil))
      · omega
  obtain ⟨m₁, hgrow, hr₁, hb₁, hlen₁⟩ := hgrown
  obtain ⟨m', hplace, hr', hlen'⟩ :=
    hr₁.place (hr₁.inv.exists_empty (le_of_lt hlen₁) hb₁) key val
  refine ⟨m', ?_, hr', ?_⟩
  · unfold HashMap.insert
    rw [insertEntry, hgrow]
    exact congrArg some hplace
  have hlen := length_insert hr.distinct key val
  have := hr₁.length
  have := hr'.length
  unfold Loaded
  omega

/-! ## Removal -/

/-- If the key is in bucket `x` and its removal leaves the bucket `r` further on empty, then the
entry in bucket `y` is not probed across that one. -/
def ClearOf (m : HashMap K V) (key : K) (x r y : Nat) : Prop :=
  ∀ e ∈ cell m.buckets x, ∀ e' ∈ cell m.buckets y,
    HashKey.eq e.key key = true ∧ ShiftEnds m.buckets x r ∧ y ≠ x → ¬ Crosses m.buckets e' (x + r)

instance (m : HashMap K V) (key : K) (x r y : Nat) : Decidable (m.ClearOf key x r y) :=
  inferInstanceAs (Decidable (∀ e ∈ cell m.buckets x, ∀ e' ∈ cell m.buckets y, _))

/-- No other entry is probed across the bucket that removing a key leaves empty. -/
def Uncrossed (m : HashMap K V) (key : K) : Prop :=
  ∀ x < m.buckets.length, ∀ r < m.buckets.length, ∀ y < m.buckets.length, m.ClearOf key x r y

instance (m : HashMap K V) (key : K) : Decidable (m.Uncrossed key) :=
  inferInstanceAs (Decidable (∀ x < m.buckets.length, _))

lemma Shifted.keys {bs : List (Option (Entry K V))} (hs : Shifted bs x r cur) (hr : r < bs.length)
    (hkeys : ∀ y z e e', cell bs y = some e → cell bs z = some e' →
      HashKey.eq e.key e'.key = true → y % bs.length = z % bs.length)
    (y z : Nat) (e e' : Entry K V) (he : cell cur y = some e) (he' : cell cur z = some e')
    (heq : HashKey.eq e.key e'.key = true) : y % cur.length = z % cur.length := by
  obtain ⟨i, hi, -, e₀, he₀, -, hk, -, -, hy⟩ := hs.origin hr he
  obtain ⟨j, hj, -, e₀', he₀', -, hk', -, -, hz⟩ := hs.origin hr he'
  rw [← hk, ← hk'] at heq
  obtain rfl := offset_inj hi hj (hkeys _ _ e₀ e₀' he₀ he₀' heq)
  rw [hs.length, ← hy, ← hz]

include hr in
/-- A removal that leaves no hole in the way of another entry erases the key. -/
lemma Represents.erased (hx : x < m.buckets.length)
    (he : cell m.buckets x = some e) (hkey : HashKey.eq e.key key = true)
    (hs : Shifted m.buckets x r cur) (hrlt : r < m.buckets.length)
    (hends : ShiftEnds m.buckets x r) (hun : m.Uncrossed key) :
    Represents { m with buckets := cur, len := m.len - 1 } (b.erase key) := by
  have hi := hr.inv
  have hlookup : b.lookup key = some e.value := (hr.stored key _).2 ⟨x, e, he, hkey, rfl⟩
  have herased := length_erase hr.distinct key
  rw [hlookup] at herased
  have hlen : m.len - 1 = (b.erase key).length := by
    have := hr.length
    simp at herased
    omega
  have hcount := hs.count
  refine ⟨⟨?_, ?_, ?_, hs.keys hrlt hi.keys, ?_⟩, hr.distinct.erase key, hlen, ?_⟩
  · obtain hnil | ⟨k, hk, hlen, hmask⟩ := hi.shape
    · exact absurd hnil (ne_nil_of_cell he)
    · exact .inr ⟨k, hk, hs.length.trans hlen, hmask⟩
  · -- no entry is probed across the hole
    apply hs.holed.close
    intro y f hf t ht
    obtain ⟨i, hi', h0, f₀, hf₀, hhash, -, -, hdist, -⟩ := hs.origin hrlt hf
    rw [← hhash, hs.length]
    rw [← cell_mod] at hf₀
    intro heq
    refine hun x hx r hrlt _ (mod_length_lt (ne_nil_of_cell he) _) e he f₀ hf₀
      ⟨hkey, hends, ?_⟩ ⟨t, lt_of_lt_of_le ht hdist, heq⟩
    intro hxi
    have hself : (x + 0) % m.buckets.length = x := Nat.mod_eq_of_lt hx
    exact h0 (offset_inj (j := 0) hi' (by omega) (hxi.trans hself.symm))
  · intro y f hf
    obtain ⟨i, -, -, f₀, hf₀, hhash, hk, -, -, -⟩ := hs.origin hrlt hf
    rw [← hhash, ← hk]
    exact hi.hashes _ f₀ hf₀
  · have := hi.count
    show m.len - 1 = occupied cur
    omega
  · intro k v
    rw [lookup_erase]
    cases hk : HashKey.eq key k with
    | true =>
      constructor
      · exact nofun
      · -- the only bucket with the key was the one removed
        rintro ⟨y, f, hf, hfk, -⟩
        obtain ⟨i, hi', h0, f₀, hf₀, -, hk₀, -, -, -⟩ := hs.origin hrlt hf
        have heq : HashKey.eq f₀.key e.key = true := by
          rw [hk₀]
          exact HashKey.eq_trans _ _ _ (HashKey.eq_trans _ _ _ hfk (HashKey.eq_symm _ _ hk))
            (HashKey.eq_symm _ _ hkey)
        exact absurd (offset_inj (j := 0) hi' (by omega) (hi.keys _ _ f₀ e hf₀ he heq)) h0
    | false =>
      rw [if_neg (by decide), hr.stored]
      constructor
      · rintro ⟨y, f, hf, hfk, hv⟩
        have hy : y % m.buckets.length ≠ x % m.buckets.length := by
          intro heq
          rw [cell_congr heq, he] at hf
          cases hf
          rw [HashKey.eq_trans _ _ _ (HashKey.eq_symm _ _ hkey) hfk] at hk
          cases hk
        obtain ⟨z, f', hf', hk', hv'⟩ := hs.kept hf hy
        exact ⟨z, f', hf', by rw [hk']; exact hfk, hv'.trans hv⟩
      · rintro ⟨y, f, hf, hfk, hv⟩
        obtain ⟨i, -, -, f₀, hf₀, -, hk₀, hv₀, -, -⟩ := hs.origin hrlt hf
        exact ⟨_, f₀, hf₀, by rw [hk₀]; exact hfk, hv₀.trans hv⟩

include hr in
lemma Represents.remove (hl : m.Loaded) (hun : m.Uncrossed key) :
    ∃ m', m.remove key = some (m', b.lookup key) ∧ m'.Represents (b.erase key) ∧ m'.Loaded := by
  have hi := hr.inv
  have hget := hr.get_eq key
  unfold HashMap.get at hget
  unfold HashMap.remove
  cases hfind : m.findKey key with
  | none =>
    rw [hfind] at hget
    refine ⟨m, by rw [← hget]; rfl, ?_, hl⟩
    rw [erase_eq_self hget.symm]
    exact hr
  | some p =>
    obtain ⟨x, e⟩ := p
    rw [hfind] at hget
    obtain ⟨hx, he, hkey⟩ := (hi.findKey_iff key x e).1 hfind
    have hb := ne_nil_of_cell he
    -- some bucket after this one is empty
    obtain ⟨y, -, hy⟩ := hi.exists_empty hl hb
    obtain ⟨s, hs, hxs⟩ := exists_offset hb x y
    rw [← cell_congr hxs] at hy
    have hspos : 0 < s := by
      apply Nat.pos_of_ne_zero
      rintro rfl
      rw [Nat.add_zero, he] at hy
      cases hy
    obtain ⟨r, cur, hshift, hsh, hrlt, hends⟩ := Shifted.shiftBack m.mask (hi.next hb) hs hy
      m.buckets.length (Shifted.start hi.probed he) hspos (by omega)
    rw [Nat.add_zero, Nat.mod_eq_of_lt hx, ← hi.and_mask hb] at hshift
    refine ⟨{ m with buckets := cur, len := m.len - 1 }, ?_,
      hr.erased hx he hkey hsh hrlt hends hun, ?_⟩
    · dsimp only
      rw [hshift, ← hget]
      rfl
    · unfold Loaded at hl ⊢
      dsimp only
      rw [hsh.length]
      omega

include hr in
lemma Represents.clear : m.clear.Represents [] ∧ m.clear.Loaded := by
  have hbuckets : m.clear.buckets = replicate m.buckets.length none := map_const'
  refine ⟨represents_of_vacant ?_ ?_ ?_ rfl, Nat.zero_le _⟩
  · rw [hbuckets, length_replicate, replicate_eq_nil_iff, length_eq_zero_iff]
    exact hr.inv.shape
  · rw [hbuckets]
    exact cell_replicate _
  · rw [hbuckets]
    exact occupied_replicate _

lemma roundUp_power {minCap fuel cap : Nat} (h : roundUp minCap fuel (2 ^ k) = some cap) :
    ∃ k', k ≤ k' ∧ cap = 2 ^ k' := by
  induction fuel generalizing k with
  | zero => cases h
  | succ fuel ih =>
    rw [roundUp] at h
    split at h
    · split at h
      · cases h
      · rw [← Nat.pow_succ] at h
        obtain ⟨k', hk', hcap⟩ := ih h
        exact ⟨k', Nat.le_of_succ_le hk', hcap⟩
    · exact ⟨k, Nat.le_refl k, (some.inj h).symm⟩

/-- The maps that the constructors return. -/
inductive Fresh : HashMap K V → Prop
  | new : Fresh new
  | withCapacity {minCap : Nat} {m : HashMap K V} : withCapacity minCap = some m → Fresh m

lemma Fresh.represents (hf : Fresh m) : m.Represents [] ∧ m.Loaded := by
  cases hf with
  | new => exact ⟨represents_of_vacant (.inl rfl) (fun _ => rfl) rfl rfl, Nat.zero_le _⟩
  | withCapacity h =>
    unfold HashMap.withCapacity at h
    split at h
    · cases h
    split at h
    · cases h
    next cap hcap =>
      obtain ⟨k, hk, rfl⟩ := roundUp_power (k := 3) hcap
      cases h
      exact ⟨represents_empty hk, Nat.zero_le _⟩

/-! ## Runs of operations -/

/-- A call of a public operation. -/
inductive Op (K V : Type)
  | insert (key : K) (val : V)
  | remove (key : K)
  | get (key : K)
  | getRef (key : K)
  | contains (key : K)
  | clear
  | len
  | isEmpty

/-- What an operation returns. -/
inductive Answer (V : Type)
  | value (v : Option V)
  | flag (b : Bool)
  | size (n : Nat)
  | void
deriving DecidableEq, Repr

variable (m)

/-- The effect of an operation on a hash map; without a result the process is aborted. -/
def step : Op K V → Option (HashMap K V × Answer V)
  | .insert key val => (m.insert key val).map fun p => (p.1, .value p.2)
  | .remove key => (m.remove key).map fun p => (p.1, .value p.2)
  | .get key => some (m, .value (m.get key))
  | .getRef key => some (m, .value (m.getRef key))
  | .contains key => some (m, .flag (m.contains key))
  | .clear => some (m.clear, .void)
  | .len => some (m, .size m.len)
  | .isEmpty => some (m, .flag (m.len == 0))

/-- The map after an operation. -/
def after (op : Op K V) : Option (HashMap K V) := (m.step op).map Prod.fst

/-- The condition on a step: an insertion does not have to grow a table of the largest size, and a
removal leaves no bucket empty that another entry is probed across. -/
def Meets : Op K V → Prop
  | .insert _ _ =>
    maxBuckets ≤ m.buckets.length → m.len < m.buckets.length - m.buckets.length / 4
  | .remove key => m.Uncrossed key
  | _ => True

variable {m}

instance (m : HashMap K V) : ∀ op, Decidable (m.Meets op)
  | .insert _ _ => inferInstanceAs (Decidable (_ → _))
  | .remove key => inferInstanceAs (Decidable (m.Uncrossed key))
  | .get _ | .getRef _ | .contains _ | .clear | .len | .isEmpty => isTrue trivial

/-- The answers to a sequence of operations. -/
def run : List (Op K V) → HashMap K V → Option (List (Answer V))
  | [], _ => some []
  | op :: ops, m =>
    match m.step op with
    | none => none
    | some (m', answer) => (run ops m').map (answer :: ·)

end HashMap

namespace Bindings

variable {K V : Type} [HashKey K]

/-- The effect of an operation on a finite map. -/
def step (b : Bindings K V) : Op K V → Bindings K V × Answer V
  | .insert key val => (b.insert key val, .value (b.lookup key))
  | .remove key => (b.erase key, .value (b.lookup key))
  | .get key => (b, .value (b.lookup key))
  | .getRef key => (b, .value (b.lookup key))
  | .contains key => (b, .flag (b.lookup key).isSome)
  | .clear => ([], .void)
  | .len => (b, .size b.length)
  | .isEmpty => (b, .flag (b.length == 0))

/-- The answers of a finite map to a sequence of operations. -/
def run : List (Op K V) → Bindings K V → List (Answer V)
  | [], _ => []
  | op :: ops, b => (b.step op).2 :: run ops (b.step op).1

end Bindings

namespace HashMap

variable {K V : Type} [HashKey K] {m : HashMap K V} {b : Bindings K V}

lemma Represents.step (hr : m.Represents b) (hl : m.Loaded) (op : Op K V) (hm : m.Meets op) :
    ∃ m', m.step op = some (m', (b.step op).2) ∧ m'.Represents (b.step op).1 ∧ m'.Loaded := by
  cases op with
  | insert key val =>
    obtain ⟨m', h, hr', hl'⟩ := hr.insert hm key val
    refine ⟨m', ?_, hr', hl'⟩
    show (m.insert key val).map _ = _
    rw [h]
    rfl
  | remove key =>
    obtain ⟨m', h, hr', hl'⟩ := hr.remove hl hm
    refine ⟨m', ?_, hr', hl'⟩
    show (m.remove key).map _ = _
    rw [h]
    rfl
  | get key | getRef key =>
    refine ⟨m, ?_, hr, hl⟩
    show some (m, Answer.value (m.get key)) = _
    rw [hr.get_eq]
    rfl
  | contains key =>
    refine ⟨m, ?_, hr, hl⟩
    show some (m, Answer.flag (m.contains key)) = _
    rw [hr.contains_eq]
    rfl
  | clear => exact ⟨m.clear, rfl, hr.clear.1, hr.clear.2⟩
  | len =>
    refine ⟨m, ?_, hr, hl⟩
    show some (m, Answer.size m.len) = _
    rw [hr.length]
    rfl
  | isEmpty =>
    refine ⟨m, ?_, hr, hl⟩
    show some (m, Answer.flag (m.len == 0)) = _
    rw [hr.length]
    rfl

lemma Represents.run (hr : m.Represents b) (hl : m.Loaded) (ops : List (Op K V))
    (hm : Along after Meets ops m) : m.run ops = some (b.run ops) := by
  induction ops generalizing m b with
  | nil => rfl
  | cons op ops ih =>
    obtain ⟨m', hstep, hr', hl'⟩ := hr.step hl op hm.1
    have hrest := ih hr' hl' (hm.2 m' (by rw [after, hstep]; rfl))
    rw [run, hstep]
    show (m'.run ops).map _ = _
    rw [hrest]
    rfl

/-- A hash map answers every sequence of operations like a finite map, as long as no removal leaves
an empty bucket in the way of another entry. -/
theorem hashMap_finite (ops : List (Op K V)) (m : HashMap K V) (hf : Fresh m)
    (hm : Along after Meets ops m) : m.run ops = some (Bindings.run ops []) :=
  hf.represents.1.run hf.represents.2 ops hm

end HashMap

/-! ## Byte keys -/

/-- `FnvHasher`, with its state. -/
structure FnvHasher where
  state : BitVec 64

def FnvHasher.new : FnvHasher := ⟨14695981039346656037⟩

def FnvHasher.writeU8 (h : FnvHasher) (i : BitVec 8) : FnvHasher :=
  ⟨(h.state ^^^ i.setWidth 64) * 1099511628211⟩

def FnvHasher.finish (h : FnvHasher) : BitVec 64 := h.state

/-- A key type that hashes its byte. -/
instance : HashKey (BitVec 8) where
  hashKey k := (FnvHasher.new.writeU8 k).finish.toNat
  eq k k' := k == k'
  eq_refl k := beq_self_eq_true k
  eq_symm k k' h := by
    rw [eq_of_beq h]
    exact beq_self_eq_true k'
  eq_trans k k' k'' h h' := by
    rw [eq_of_beq h]
    exact h'
  hashKey_eq k k' h := by rw [eq_of_beq h]

namespace HashMap

/-- Three keys of which the third is probed across the second one's bucket. -/
def crossing : List (Op (BitVec 8) Nat) :=
  [.insert 5 50, .insert 6 60, .insert 13 130, .remove 5, .get 13]

/-- After the first key is removed the third one is not found. -/
theorem hashMap_lost : (new : HashMap (BitVec 8) Nat).run crossing =
        some [.value none, .value none, .value none, .value (some 50), .value none] ∧
      Bindings.run crossing [] =
        [.value none, .value none, .value none, .value (some 50), .value (some 130)] := by
  decide +kernel

def closing : List (Op (BitVec 8) Nat) :=
  [.insert 5 50, .insert 13 130, .remove 5, .get 13, .len]

theorem hashMap_finite_closing :
    (new : HashMap (BitVec 8) Nat).run closing = some (Bindings.run closing []) :=
  hashMap_finite closing new .new (by decide +kernel)

end HashMap

end Arandu.Stdlib
