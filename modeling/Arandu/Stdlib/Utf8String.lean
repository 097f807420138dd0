import Mathlib.Algebra.Group.Nat.Defs
import Mathlib.Data.List.Basic

/-!
# Owned strings

`stdlib/alloc/string.aru`: a `String` is a growable buffer of bytes. A scalar is encoded when it is
pushed, and `truncate` refuses to cut inside of a character; so the bytes are always UTF-8.
-/

namespace Arandu.Stdlib

structure OwnedString where
  bytes : List UInt8
  capacity : Nat
deriving DecidableEq, Repr

def maxBufferCapacity : Nat := 2147483647

namespace OwnedString

/-- Which capacities the allocator grants. A capacity that was refused is refused again. -/
abbrev Grants := Nat → Bool

variable (alloc : Grants) (s : OwnedString)

def new : OwnedString := ⟨[], 0⟩

variable (minCap : Nat)

/-- The loop that doubles a capacity, in `tryEnsureCapacity` and in `ar_string_push_str`. -/
def growLoop : Nat → Nat → Nat
  | 0, newCap => newCap
  | fuel + 1, newCap =>
    if newCap < minCap then
      growLoop fuel (if newCap > maxBufferCapacity / 2 then maxBufferCapacity else newCap * 2)
    else newCap

def tryEnsureCapacity : Bool × OwnedString :=
  if minCap > maxBufferCapacity then (false, s)
  else if s.capacity ≥ minCap then (true, s)
  else
    let newCap := growLoop minCap 32 (if s.capacity = 0 then 8 else s.capacity)
    if alloc newCap then (true, { s with capacity := newCap }) else (false, s)

/-- Without a result the process is aborted. -/
def ensureCapacity : Option OwnedString :=
  match tryEnsureCapacity alloc s minCap with
  | (true, s) => some s
  | (false, _) => none

def withCapacity (cap : Nat) : Option OwnedString := ensureCapacity alloc new cap

variable (c : Char)

def lenUtf8 : Nat :=
  if c.toNat ≤ 127 then 1 else if c.toNat ≤ 2047 then 2 else if c.toNat ≤ 65535 then 3 else 4

/-- The bytes `pushScalar` writes. -/
def encode : List UInt8 :=
  let val := c.toNat
  if lenUtf8 c = 1 then [.ofNat val]
  else if lenUtf8 c = 2 then [.ofNat (192 ||| (val >>> 6)), .ofNat (128 ||| (val &&& 63))]
  else if lenUtf8 c = 3 then
    [.ofNat (224 ||| (val >>> 12)), .ofNat (128 ||| ((val >>> 6) &&& 63)),
      .ofNat (128 ||| (val &&& 63))]
  else
    [.ofNat (240 ||| (val >>> 18)), .ofNat (128 ||| ((val >>> 12) &&& 63)),
      .ofNat (128 ||| ((val >>> 6) &&& 63)), .ofNat (128 ||| (val &&& 63))]

/-- Without a result the process is aborted. -/
def pushScalar : Option OwnedString :=
  if lenUtf8 c > maxBufferCapacity - s.bytes.length then none
  else
    let need := s.bytes.length + lenUtf8 c
    (if s.capacity < need then ensureCapacity alloc s need else some s).map fun s =>
      { s with bytes := s.bytes ++ encode c }

/-- `pushStr`, which is `ar_string_push_str`. -/
def pushStr (value : List UInt8) : Bool × OwnedString :=
  let required := s.bytes.length + value.length
  if required > maxBufferCapacity then (false, s)
  else if required > s.capacity then
    let capacity := growLoop required 32 (max s.capacity 8)
    if alloc capacity then (true, ⟨s.bytes ++ value, capacity⟩) else (false, s)
  else (true, { s with bytes := s.bytes ++ value })

def clear : OwnedString := { s with bytes := [] }

def truncate (newLen : Nat) : OwnedString :=
  if newLen < s.bytes.length then
    if newLen > 0 ∧ (s.bytes.getD newLen 0) &&& 192 = 128 then s
    else { s with bytes := s.bytes.take newLen }
  else s

/-- `charCount` of `core/str.aru`: the bytes that are not inside of a character. -/
def charCount (bytes : List UInt8) : Nat := bytes.countP (· &&& 192 ≠ 128)

inductive Op where
  | pushScalar (c : Char)
  /-- the text of a `str` is UTF-8 -/
  | pushStr (value : List Char)
  | truncate (newLen : Nat)
  | clear
deriving DecidableEq, Repr

def utf8 (cs : List Char) : List UInt8 := cs.flatMap String.utf8EncodeChar

def step : Op → Option OwnedString
  | .pushScalar c => s.pushScalar alloc c
  | .pushStr value => some (s.pushStr alloc (utf8 value)).2
  | .truncate newLen => some (s.truncate newLen)
  | .clear => some s.clear

/-- A sequence of calls, each with what the allocator grants meanwhile. -/
def run : List (Op × Grants) → OwnedString → Option OwnedString
  | [], s => some s
  | (op, alloc) :: rest, s => (step alloc s op).bind (run rest)

/-! ## One character -/

variable {alloc s} {cs : List Char} {s' : OwnedString} {n : Nat}

lemma or_add {a i x : Nat} (hx : x < 2 ^ i) : a <<< i ||| x = x + a <<< i := by
  rw [← Nat.shiftLeft_add_eq_or_of_lt hx, Nat.add_comm]

lemma encode_eq : encode c = String.utf8EncodeChar c := by
  have hmask (n : Nat) : n &&& 63 = n % 64 := Nat.and_two_pow_sub_one_eq_mod n 6
  have hlow (n : Nat) : 128 ||| n % 64 = n % 64 + 128 :=
    @or_add 2 6 _ (Nat.mod_lt n (by decide))
  have hval : c.val.toNat = c.toNat := rfl
  have hlt : c.toNat < 2 ^ 21 := by rcases c.valid with h | h <;> omega
  unfold encode lenUtf8 String.utf8EncodeChar
  simp only [hmask, hlow, hval, Nat.shiftRight_eq_div_pow]
  by_cases h1 : c.toNat ≤ 127
  · simp [h1]
  by_cases h2 : c.toNat ≤ 2047
  · have hlead : 192 ||| c.toNat / 2 ^ 6 = c.toNat / 64 % 32 + 192 :=
      (@or_add 6 5 _ (by omega)).trans (by omega)
    rw [hlead]
    simp [h1, h2]
  by_cases h3 : c.toNat ≤ 65535
  · have hlead : 224 ||| c.toNat / 2 ^ 12 = c.toNat / 4096 % 16 + 224 :=
      (@or_add 14 4 _ (by omega)).trans (by omega)
    rw [hlead]
    simp [h1, h2, h3]
  · have hlead : 240 ||| c.toNat / 2 ^ 18 = c.toNat / 262144 % 8 + 240 :=
      (@or_add 30 3 _ (by omega)).trans (by omega)
    rw [hlead]
    simp [h1, h2, h3]

lemma and_192 : ∀ k < 256, UInt8.ofNat k &&& 192 = 128 ↔ 128 ≤ k ∧ k < 192 := by
  decide +kernel

open List

/-- A character starts with a byte of its own kind. -/
lemma utf8EncodeChar_eq_cons : ∃ lead rest, String.utf8EncodeChar c = lead :: rest ∧
    lead &&& 192 ≠ 128 ∧ ∀ b ∈ rest, b &&& 192 = 128 := by
  have hlow (n : Nat) : UInt8.ofNat (n % 64 + 128) &&& 192 = 128 :=
    (and_192 _ (by omega)).2 (by omega)
  have hlead (n : Nat) (h : n < 128 ∨ 192 ≤ n ∧ n < 256) : UInt8.ofNat n &&& 192 ≠ 128 :=
    mt (and_192 _ (by omega)).1 (by omega)
  unfold String.utf8EncodeChar
  dsimp only
  split_ifs
  · exact ⟨_, _, rfl, hlead _ (by omega), forall_mem_nil _⟩
  all_goals
    refine ⟨_, _, rfl, hlead _ (by omega), ?_⟩
    simp only [forall_mem_cons, hlow, not_mem_nil, false_imp_iff, implies_true, and_self]

/-! ## Texts -/

lemma utf8_append (cs ds : List Char) : utf8 (cs ++ ds) = utf8 cs ++ utf8 ds :=
  flatMap_append

/-- Counting the bytes that are not inside of a character counts the characters. -/
lemma charCount_utf8 (cs : List Char) : charCount (utf8 cs) = cs.length := by
  rw [charCount]
  induction cs with
  | nil => rfl
  | cons c cs ih =>
    obtain ⟨lead, rest, heq, hlead, hrest⟩ := utf8EncodeChar_eq_cons c
    have hnone : rest.countP (· &&& 192 ≠ 128) = 0 :=
      countP_eq_zero.2 fun b hb => by simp [hrest b hb]
    rw [utf8, flatMap_cons, countP_append, heq, countP_cons_of_pos (by simp [hlead]),
      hnone, length_cons, Nat.zero_add, Nat.add_comm]
    exact congrArg (· + 1) ih

/-- A cut in front of a byte that is not inside of a character leaves whole characters. -/
lemma take_utf8 {b : UInt8} (hb : (utf8 cs)[n]? = some b)
    (hcut : n > 0 → b &&& 192 ≠ 128) : ∃ k, (utf8 cs).take n = utf8 (cs.take k) := by
  induction cs generalizing n with
  | nil => cases hb
  | cons c cs ih =>
    obtain ⟨lead, rest, heq, hlead, hrest⟩ := utf8EncodeChar_eq_cons c
    have hcons : utf8 (c :: cs) = String.utf8EncodeChar c ++ utf8 cs := flatMap_cons
    rw [hcons] at hb ⊢
    by_cases hn : n = 0
    · exact ⟨0, by rw [hn]; rfl⟩
    rw [getElem?_append] at hb
    split at hb
    next hlt =>
      obtain ⟨m, rfl⟩ := Nat.exists_eq_succ_of_ne_zero hn
      rw [heq, getElem?_cons_succ] at hb
      exact absurd (hrest b (mem_of_getElem? hb)) (hcut (Nat.succ_pos m))
    next hge =>
      obtain ⟨k, hk⟩ := ih hb fun _ => hcut (Nat.pos_of_ne_zero hn)
      refine ⟨k + 1, ?_⟩
      rw [take_append, take_of_length_le (Nat.le_of_not_lt hge), hk]
      rfl

/-! ## Whole runs -/

lemma ensureCapacity_bytes (h : ensureCapacity alloc s n = some s') : s'.bytes = s.bytes := by
  have hkept : (tryEnsureCapacity alloc s n).2.bytes = s.bytes := by
    unfold tryEnsureCapacity
    dsimp only
    split_ifs <;> rfl
  unfold ensureCapacity at h
  split at h
  next heq =>
    cases h
    rwa [heq] at hkept
  next => cases h

lemma pushScalar_bytes {c : Char} (h : pushScalar alloc s c = some s') :
    s'.bytes = s.bytes ++ String.utf8EncodeChar c := by
  unfold pushScalar at h
  split at h
  next => cases h
  next =>
    obtain ⟨t, ht, rfl⟩ := Option.map_eq_some_iff.1 h
    rw [encode_eq]
    split at ht
    next => exact congrArg (· ++ _) (ensureCapacity_bytes ht)
    next =>
      cases ht
      rfl

lemma ensureCapacity_isSome (halloc : ∀ n, alloc n = true)
    (h : n ≤ maxBufferCapacity) : (ensureCapacity alloc s n).isSome := by
  unfold ensureCapacity tryEnsureCapacity
  rw [if_neg (Nat.not_lt.2 h)]
  by_cases hs : s.capacity ≥ n
  · rw [if_pos hs]
    rfl
  · simp [hs, halloc]

lemma length_encode : (encode c).length = lenUtf8 c := by
  unfold encode lenUtf8
  split_ifs <;> simp_all

lemma pushScalar_isSome (halloc : ∀ n, alloc n = true) {c : Char}
    (h : s.bytes.length + lenUtf8 c ≤ maxBufferCapacity) : (s.pushScalar alloc c).isSome := by
  rw [pushScalar, if_neg (by omega), Option.isSome_map]
  split
  · exact ensureCapacity_isSome halloc h
  · rfl

lemma pushStr_cases (alloc : Grants) (s : OwnedString) (value : List UInt8) :
    (s.pushStr alloc value).1 = true ∧ (s.pushStr alloc value).2.bytes = s.bytes ++ value ∨
      s.pushStr alloc value = (false, s) := by
  unfold pushStr
  dsimp only
  split_ifs
  · exact .inr rfl
  · exact .inl ⟨rfl, rfl⟩
  · exact .inr rfl
  · exact .inl ⟨rfl, rfl⟩

lemma truncate_cases (hs : s.bytes = utf8 cs) (n : Nat) : s.truncate n = s ∨
    ∃ k, (s.truncate n).bytes = utf8 (cs.take k) ∧ (s.truncate n).bytes.length = n := by
  unfold truncate
  split_ifs with hlt hinside
  · exact .inl rfl
  · obtain ⟨b, hb⟩ : ∃ b, s.bytes[n]? = some b := ⟨_, getElem?_eq_getElem hlt⟩
    rw [getD_eq_getElem?_getD, hb] at hinside
    obtain ⟨k, hk⟩ := take_utf8 (hs ▸ hb) fun hpos hcut => hinside ⟨hpos, hcut⟩
    exact .inr ⟨k, by rw [hs, hk], by rw [length_take]; omega⟩
  · exact .inl rfl

lemma step_utf8 {op : Op} (hs : s.bytes = utf8 cs)
    (h : step alloc s op = some s') : ∃ cs', s'.bytes = utf8 cs' := by
  cases op with
  | pushScalar c =>
    refine ⟨cs ++ [c], ?_⟩
    rw [pushScalar_bytes h, hs, utf8_append]
    exact congrArg (_ ++ ·) (append_nil _).symm
  | pushStr value =>
    cases h
    rcases pushStr_cases alloc s (utf8 value) with ⟨-, heq⟩ | heq
    · exact ⟨cs ++ value, by rw [heq, hs, utf8_append]⟩
    · exact ⟨cs, by rw [heq, hs]⟩
  | truncate n =>
    cases h
    rcases truncate_cases hs n with heq | ⟨k, hk, -⟩
    · exact ⟨cs, by rw [heq, hs]⟩
    · exact ⟨_, hk⟩
  | clear =>
    cases h
    exact ⟨[], rfl⟩

lemma run_utf8 {ops : List (Op × Grants)} (hs : s.bytes = utf8 cs)
    (h : run ops s = some s') : ∃ cs', s'.bytes = utf8 cs' := by
  induction ops generalizing s cs with
  | nil =>
    cases h
    exact ⟨cs, hs⟩
  | cons call rest ih =>
    obtain ⟨s₁, hstep, hrest⟩ := Option.bind_eq_some_iff.1 h
    obtain ⟨cs₁, hs₁⟩ := step_utf8 hs hstep
    exact ih hs₁ hrest

/-- After any calls the bytes are the encoding of some characters, which `charCount` counts and
between which `truncate` cuts. -/
theorem string_utf8 {ops : List (Op × Grants)} (h : run ops new = some s) :
    ∃ cs, s.bytes = utf8 cs ∧ charCount s.bytes = cs.length ∧ ∀ n, s.truncate n = s ∨
        ∃ k, (s.truncate n).bytes = utf8 (cs.take k) ∧ (s.truncate n).bytes.length = n := by
  obtain ⟨cs, hs⟩ := run_utf8 (show new.bytes = utf8 [] from rfl) h
  exact ⟨cs, hs, hs ▸ charCount_utf8 cs, truncate_cases hs⟩

/-- Two characters, a cut that is refused and an allocation that fails. -/
theorem string_utf8_refused : ∃ cs, utf8 cs = [195, 169, 97] ∧ cs.length = 2 := by
  obtain ⟨cs, hs, hcount, -⟩ := @string_utf8 ⟨[195, 169, 97], 8⟩
    [(.pushScalar 'é', fun _ => true), (.truncate 1, fun _ => true),
      (.pushScalar 'a', fun _ => true),
      (.pushStr (replicate 9 'b'), fun _ => false)] (by decide +kernel)
  exact ⟨cs, hs.symm, hcount.symm.trans (by decide)⟩

end OwnedString

end Arandu.Stdlib
