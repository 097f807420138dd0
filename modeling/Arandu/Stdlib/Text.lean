import Arandu.Stdlib.Utf8String
import Mathlib.Data.List.DropRight
import Mathlib.Data.List.GetD

/-!
# Text utilities

`stdlib/std/text.aru`. Trimming and case mapping copy byte by byte, but each byte is pushed as the
scalar with its number, which is encoded again; and padding takes the number of bytes for the number
of characters. Both are right for ASCII texts only.
-/

namespace Arandu.Stdlib.Text

open List OwnedString
open Option (bind_eq_some_iff isSome_iff_exists map_eq_some_iff)
open String (utf8EncodeChar)

variable (b : UInt8)

def isWhitespaceByte : Bool :=
  b == 32 || b == 9 || b == 10 || b == 13 || b == 11 || b == 12

variable (alloc : Grants)

/-- A loop of `pushScalar`. -/
def pushAll (cs : List Char) (res : OwnedString) : Option OwnedString :=
  cs.foldlM (fun res c => res.pushScalar alloc c) res

/-- `while i < end { res.pushScalar(outB as char); i = i + 1 }`, with `end - i` rounds left. -/
def pushBytes (outB : UInt8 → UInt8) (bytes : List UInt8) :
    Nat → Nat → OwnedString → Option OwnedString
  | 0, _, res => some res
  | left + 1, i, res =>
    (res.pushScalar alloc (.ofUInt8 (outB (bytes.getD i 0)))).bind
      (pushBytes outB bytes left (i + 1))

def appendBytes (res : OwnedString) (bytes : List UInt8) (start stop : Nat) : Option OwnedString :=
  pushBytes alloc id bytes (stop - start) start res

/-- `while start < slen && isWhitespaceByte(bytes[start])`, with `slen - start` rounds left. -/
def skipStart (bytes : List UInt8) : Nat → Nat → Nat
  | 0, start => start
  | left + 1, start =>
    if isWhitespaceByte (bytes.getD start 0) then skipStart bytes left (start + 1) else start

/-- `while end > start && isWhitespaceByte(bytes[end - 1])`. -/
def skipEnd (bytes : List UInt8) (start : Nat) : Nat → Nat
  | 0 => 0
  | stop + 1 =>
    if stop + 1 > start ∧ isWhitespaceByte (bytes.getD stop 0) then skipEnd bytes start stop
    else stop + 1

/-- The end of the trimming functions: an empty text needs no buffer. -/
def copyRange (bytes : List UInt8) (start stop : Nat) : Option OwnedString :=
  if start ≥ stop then some new
  else (withCapacity alloc (stop - start)).bind (appendBytes alloc · bytes start stop)

variable (s : List UInt8)

def trimStart : Option OwnedString :=
  if s.length = 0 then some new else copyRange alloc s (skipStart s s.length 0) s.length

def trimEnd : Option OwnedString :=
  if s.length = 0 then some new else copyRange alloc s 0 (skipEnd s 0 s.length)

def trim : Option OwnedString :=
  if s.length = 0 then some new
  else
    let start := skipStart s s.length 0
    copyRange alloc s start (skipEnd s start s.length)

def upperByte : UInt8 := if b ≥ 97 ∧ b ≤ 122 then b - 32 else b

def lowerByte : UInt8 := if b ≥ 65 ∧ b ≤ 90 then b + 32 else b

def toUpper : Option OwnedString :=
  (withCapacity alloc s.length).bind (pushBytes alloc upperByte s s.length 0)

def toLower : Option OwnedString :=
  (withCapacity alloc s.length).bind (pushBytes alloc lowerByte s s.length 0)

/-- `String.from`. -/
def fromStr : Option OwnedString :=
  match new.pushStr alloc s with
  | (true, res) => some res
  | (false, _) => none

/-- Which side the padding is on. -/
inductive Side where
  | left
  | right
  | both
deriving DecidableEq, Repr

/-- How much of the padding stands on the left and on the right. -/
def Side.split (pad : Nat) : Side → Nat × Nat
  | .left => (pad, 0)
  | .right => (0, pad)
  | .both => (pad / 2, pad - pad / 2)

/-- The padding functions drop the result of `pushStr`, which is returned here as well. -/
def padCall (side : Side) (s : List UInt8) (width : Nat) (fill : Char) :
    Option (Bool × OwnedString) :=
  if s.length ≥ width then (fromStr alloc s).map (true, ·)
  else do
    let pad := side.split (width - s.length)
    let res ← withCapacity alloc width
    let res ← pushAll alloc (replicate pad.1 fill) res
    let pushed := res.pushStr alloc s
    let res ← pushAll alloc (replicate pad.2 fill) pushed.2
    some (pushed.1, res)

def padLeft (width : Nat) (fill : Char) : Option OwnedString :=
  (padCall alloc .left s width fill).map Prod.snd

def padRight (width : Nat) (fill : Char) : Option OwnedString :=
  (padCall alloc .right s width fill).map Prod.snd

def center (width : Nat) (fill : Char) : Option OwnedString :=
  (padCall alloc .both s width fill).map Prod.snd

/-! ## Copies -/

variable {alloc} {s bytes : List UInt8} {cs : List Char} {res res' : OwnedString} {n : Nat}

lemma pushAll_bytes (h : pushAll alloc cs res = some res') : res'.bytes = res.bytes ++ utf8 cs := by
  induction cs generalizing res with
  | nil =>
    cases h
    exact (append_nil _).symm
  | cons c cs ih =>
    obtain ⟨res₁, hpush, hrest⟩ := bind_eq_some_iff.1 h
    rw [ih hrest, pushScalar_bytes hpush, append_assoc]
    rfl

lemma pushAll_isSome (halloc : ∀ n, alloc n = true)
    (h : res.bytes.length + (utf8 cs).length ≤ maxBufferCapacity) :
    (pushAll alloc cs res).isSome := by
  induction cs generalizing res with
  | nil => rfl
  | cons c cs ih =>
    have hlength : (utf8 (c :: cs)).length = lenUtf8 c + (utf8 cs).length := by
      rw [← length_encode, encode_eq, ← length_append]
      rfl
    obtain ⟨res₁, hpush⟩ := isSome_iff_exists.1
      (@pushScalar_isSome alloc res halloc c (by omega))
    have hbytes := congrArg length (pushScalar_bytes hpush)
    rw [length_append, ← encode_eq, length_encode] at hbytes
    obtain ⟨res₂, hrest⟩ := isSome_iff_exists.1 (@ih res₁ (by omega))
    exact isSome_iff_exists.2 ⟨res₂, bind_eq_some_iff.2 ⟨res₁, hpush, hrest⟩⟩

/-- A byte is its own encoding if it is ASCII; otherwise it becomes two bytes. -/
lemma utf8EncodeChar_ofUInt8 : utf8EncodeChar (Char.ofUInt8 b) = [b] ∧ b < 128 ∨
    (utf8EncodeChar (Char.ofUInt8 b)).length = 2 ∧ ¬ b < 128 := by
  have hval : (Char.ofUInt8 b).val.toNat = b.toNat := rfl
  have hlt := b.toNat_lt
  rw [utf8EncodeChar, hval, UInt8.lt_iff_toNat_lt]
  by_cases hb : b.toNat ≤ 127
  · exact .inl ⟨by simp [hb], Nat.lt_succ_of_le hb⟩
  · exact .inr ⟨by simp [hb, show b.toNat ≤ 2047 by omega], fun h => hb (Nat.le_of_lt_succ h)⟩

lemma length_le_utf8 (cs : List Char) : cs.length ≤ (utf8 cs).length :=
  le_trans (le_of_eq (charCount_utf8 cs).symm) countP_le_length

lemma utf8_ofUInt8 (bytes : List UInt8) :
    utf8 (bytes.map Char.ofUInt8) = bytes ↔ ∀ b ∈ bytes, b < 128 := by
  induction bytes with
  | nil => simp [utf8]
  | cons b rest ih =>
    have hcons : utf8 ((b :: rest).map Char.ofUInt8) =
        utf8EncodeChar (Char.ofUInt8 b) ++ utf8 (rest.map Char.ofUInt8) := flatMap_cons
    rw [hcons, forall_mem_cons]
    rcases utf8EncodeChar_ofUInt8 b with ⟨heq, hb⟩ | ⟨hlen, hb⟩
    · rw [heq, and_iff_right hb, ← ih]
      exact cons_inj_right b
    refine iff_of_false (fun heq => ?_) fun h => hb h.1
    have hle := length_le_utf8 (rest.map Char.ofUInt8)
    have hlength := congrArg length heq
    rw [length_append, hlen, length_cons] at hlength
    rw [length_map] at hle
    omega

lemma length_utf8_ofUInt8 (bytes : List UInt8) :
    (utf8 (bytes.map Char.ofUInt8)).length ≤ 2 * bytes.length := by
  induction bytes with
  | nil => exact Nat.le_refl 0
  | cons b rest ih =>
    have hb : (utf8EncodeChar (Char.ofUInt8 b)).length ≤ 2 := by
      rcases utf8EncodeChar_ofUInt8 b with ⟨heq, -⟩ | ⟨hlen, -⟩
      · simp [heq]
      · exact hlen.le
    rw [map_cons, utf8, flatMap_cons, length_append, length_cons]
    exact (Nat.add_le_add hb ih).trans (by omega)

/-! ## Loops over bytes -/

/-- The loop pushes the bytes from `i` on, one scalar for each. -/
lemma pushBytes_eq {outB : UInt8 → UInt8} {left i : Nat} (h : i + left ≤ s.length) :
    pushBytes alloc outB s left i res =
      pushAll alloc ((((s.drop i).take left).map outB).map Char.ofUInt8) res := by
  induction left generalizing i res with
  | zero => rfl
  | succ left ih =>
    have hi : i < s.length := by omega
    rw [drop_eq_getElem_cons hi, take_succ_cons, pushBytes, getD_eq_getElem _ _ hi]
    exact bind_congr fun res₁ => ih (by omega)

lemma drop_skipStart {left i : Nat} (h : i + left = s.length) :
    s.drop (skipStart s left i) = (s.drop i).dropWhile isWhitespaceByte ∧
      skipStart s left i ≤ s.length := by
  induction left generalizing i with
  | zero =>
    rw [skipStart, drop_eq_nil_of_le (by omega)]
    exact ⟨rfl, by omega⟩
  | succ left ih =>
    have hi : i < s.length := by omega
    rw [skipStart, drop_eq_getElem_cons hi, getD_eq_getElem _ _ hi, dropWhile_cons]
    split
    · exact ih (by omega)
    · exact ⟨drop_eq_getElem_cons hi, hi.le⟩

lemma skipEnd_bounds {start stop : Nat} (h : start ≤ stop) :
    start ≤ skipEnd s start stop ∧ skipEnd s start stop ≤ stop := by
  induction stop with
  | zero => exact ⟨h, le_rfl⟩
  | succ stop ih =>
    rw [skipEnd]
    split
    · obtain ⟨hstart, hstop⟩ := ih (by omega)
      exact ⟨hstart, hstop.trans (Nat.le_succ stop)⟩
    · exact ⟨h, le_rfl⟩

lemma take_skipEnd {start stop : Nat} (h : start ≤ stop) (hs : stop ≤ s.length) :
    (s.take (skipEnd s start stop)).drop start =
      ((s.take stop).drop start).rdropWhile isWhitespaceByte := by
  induction stop with
  | zero => simp [skipEnd]
  | succ stop ih =>
    rw [skipEnd]
    by_cases hstart : start ≤ stop
    · -- the last byte of the range is kept or not
      have hi : stop < s.length := hs
      have hlast : (s.take (stop + 1)).drop start = (s.take stop).drop start ++ [s[stop]] := by
        rw [take_succ_eq_append_getElem hi, drop_append_of_le_length (by simp; omega)]
      rw [hlast, getD_eq_getElem _ _ hi]
      split
      next hspace =>
        rw [rdropWhile_concat_pos _ _ _ hspace.2]
        exact ih hstart (by omega)
      next hspace =>
        rw [rdropWhile_concat_neg _ _ _ fun hb => hspace ⟨by omega, hb⟩]
        exact hlast
    · rw [if_neg fun hspace => hstart (Nat.le_of_lt_succ hspace.1)]
      have hnil : (s.take (stop + 1)).drop start = [] := drop_eq_nil_of_le (by simp; omega)
      rw [hnil]
      rfl

/-- Bytes that are pushed as scalars are kept if they are ASCII. -/
lemma bind_pushAll (h : (withCapacity alloc n).bind (pushAll alloc (bytes.map Char.ofUInt8) ·) =
      some res) : res.bytes = bytes ↔ ∀ b ∈ bytes, b < 128 := by
  obtain ⟨res₁, hcap, happend⟩ := bind_eq_some_iff.1 h
  rw [pushAll_bytes happend, ensureCapacity_bytes hcap]
  exact utf8_ofUInt8 bytes

lemma bind_pushAll_isSome (halloc : ∀ n, alloc n = true)
    (hn : n ≤ maxBufferCapacity) (h : 2 * bytes.length ≤ maxBufferCapacity) :
    ((withCapacity alloc n).bind (pushAll alloc (bytes.map Char.ofUInt8) ·)).isSome := by
  obtain ⟨res, hcap⟩ := isSome_iff_exists.1 (@ensureCapacity_isSome alloc new n halloc hn)
  rw [show withCapacity alloc n = some res from hcap]
  apply pushAll_isSome halloc
  rw [ensureCapacity_bytes hcap]
  show 0 + (utf8 (bytes.map Char.ofUInt8)).length ≤ maxBufferCapacity
  have hlength := length_utf8_ofUInt8 bytes
  omega

/-! ## What the functions are for -/

/-- Space, or one of tab, line feed, vertical tab, form feed and carriage return. -/
def isSpace : Bool := b == 32 || (9 ≤ b && b ≤ 13)

/-- The letter in upper case; `Char.toUpper` maps ASCII letters only. -/
def upperLetter : UInt8 := (Char.ofUInt8 b).toUpper.toUInt8

def lowerLetter : UInt8 := (Char.ofUInt8 b).toLower.toUInt8

/-- The tests of the source are about the characters meant, all of them ASCII. -/
lemma byteTables : isWhitespaceByte b = isSpace b ∧ upperByte b = upperLetter b ∧
    lowerByte b = lowerLetter b ∧ (isSpace b → b < 128) ∧ (upperLetter b < 128 ↔ b < 128) ∧
    (lowerLetter b < 128 ↔ b < 128) := by
  have h : ∀ k < 256, let b := UInt8.ofNat k
      isWhitespaceByte b = isSpace b ∧ upperByte b = upperLetter b ∧
      lowerByte b = lowerLetter b ∧ (isSpace b → b < 128) ∧ (upperLetter b < 128 ↔ b < 128) ∧
      (lowerLetter b < 128 ↔ b < 128) := by decide +kernel
  simpa using h b.toNat b.toNat_lt

/-- The result is that part of the text exactly if the text is ASCII, and there is one if there is
memory for twice the text. -/
def CopiesAscii (alloc : Grants) (s : List UInt8) (result : Option OwnedString)
    (part : List UInt8) : Prop :=
  (∀ res, result = some res → (res.bytes = part ↔ ∀ b ∈ s, b < 128)) ∧
    ((∀ n, alloc n = true) → 2 * s.length ≤ maxBufferCapacity → result.isSome)

lemma copiesAscii_copyRange {start stop : Nat} {part : List UInt8} (hle : start ≤ stop)
    (hstop : stop ≤ s.length) (hpart : (s.take stop).drop start = part)
    (hascii : (∀ b ∈ part, b < 128) ↔ ∀ b ∈ s, b < 128) :
    CopiesAscii alloc s (copyRange alloc s start stop) part := by
  have hlen : part.length = stop - start := by
    rw [← hpart]
    simp [hstop]
  unfold CopiesAscii copyRange
  rw [← hascii]
  split
  next hge =>
    obtain rfl : part = [] := length_eq_zero_iff.1 (by omega)
    refine ⟨fun res h => ?_, fun _ _ => rfl⟩
    cases h
    exact iff_of_true rfl (forall_mem_nil _)
  next =>
    have happend : (appendBytes alloc · s start stop) = pushAll alloc (part.map Char.ofUInt8) := by
      funext res
      rw [appendBytes, pushBytes_eq (by omega), map_id, ← hpart, drop_take]
    rw [happend]
    refine ⟨fun res h => bind_pushAll h, fun halloc h => ?_⟩
    exact bind_pushAll_isSome halloc (by omega) (by omega)

/-- The early return for an empty text changes nothing. -/
lemma ite_copyRange {start stop : Nat} (hstop : stop ≤ s.length) :
    (if s.length = 0 then some new else copyRange alloc s start stop) =
      copyRange alloc s start stop := by
  split
  next hzero => rw [copyRange, if_pos (by omega)]
  next => rfl

lemma copiesAscii_pushBytes {outB g : UInt8 → UInt8} (houtB : ∀ b, outB b = g b)
    (hascii : ∀ b, g b < 128 ↔ b < 128) :
    CopiesAscii alloc s ((withCapacity alloc s.length).bind (pushBytes alloc outB s s.length 0))
      (s.map g) := by
  have hpush : pushBytes alloc outB s s.length 0 = pushAll alloc ((s.map g).map Char.ofUInt8) := by
    funext res
    rw [pushBytes_eq (by omega), drop_zero, take_length, funext houtB]
  rw [hpush]
  refine ⟨fun res h => ?_, fun halloc h => ?_⟩
  · rw [bind_pushAll h, forall_mem_map]
    exact forall₂_congr fun b _ => hascii b
  · exact bind_pushAll_isSome halloc (by omega) (by rwa [length_map])

lemma ascii_dropWhile (s : List UInt8) :
    (∀ b ∈ s.dropWhile isSpace, b < 128) ↔ ∀ b ∈ s, b < 128 := by
  induction s with
  | nil => rfl
  | cons b rest ih =>
    rw [dropWhile_cons]
    split
    next hb => rw [ih, forall_mem_cons, and_iff_right ((byteTables b).2.2.2.1 hb)]
    next => rfl

lemma ascii_rdropWhile (s : List UInt8) :
    (∀ b ∈ s.rdropWhile isSpace, b < 128) ↔ ∀ b ∈ s, b < 128 := by
  simpa [rdropWhile] using ascii_dropWhile s.reverse

/-- Trimming and case mapping are exact for ASCII texts and for no others. -/
theorem text_copies (alloc : Grants) (s : List UInt8) :
    CopiesAscii alloc s (trimStart alloc s) (s.dropWhile isSpace) ∧
    CopiesAscii alloc s (trimEnd alloc s) (s.rdropWhile isSpace) ∧
    CopiesAscii alloc s (trim alloc s) ((s.dropWhile isSpace).rdropWhile isSpace) ∧
    CopiesAscii alloc s (toUpper alloc s) (s.map upperLetter) ∧
    CopiesAscii alloc s (toLower alloc s) (s.map lowerLetter) := by
  obtain ⟨hdrop, hstart⟩ := drop_skipStart (s := s) (Nat.zero_add s.length)
  have hspace : isWhitespaceByte = isSpace := funext fun b => (byteTables b).1
  have hend {start : Nat} (h : start ≤ s.length) :
      (s.take (skipEnd s start s.length)).drop start = (s.drop start).rdropWhile isSpace := by
    rw [take_skipEnd h le_rfl, take_length, hspace]
  have hstop {start : Nat} (h : start ≤ s.length) := (skipEnd_bounds (s := s) h).2
  rw [drop_zero, hspace] at hdrop
  refine ⟨?_, ?_, ?_, ?_, ?_⟩
  · rw [trimStart, ite_copyRange le_rfl]
    exact copiesAscii_copyRange hstart le_rfl (by rw [take_length, hdrop]) (ascii_dropWhile s)
  · rw [trimEnd, ite_copyRange (hstop (Nat.zero_le _))]
    exact copiesAscii_copyRange (Nat.zero_le _) (hstop (Nat.zero_le _)) (hend (Nat.zero_le _))
      (ascii_rdropWhile s)
  · rw [trim, ite_copyRange (hstop hstart)]
    refine copiesAscii_copyRange (skipEnd_bounds hstart).1 (hstop hstart) ?_ ?_
    · rw [hend hstart, hdrop]
    · rw [ascii_rdropWhile, ascii_dropWhile]
  · exact copiesAscii_pushBytes (fun b => (byteTables b).2.1) fun b => (byteTables b).2.2.2.2.1
  · exact copiesAscii_pushBytes (fun b => (byteTables b).2.2.1) fun b => (byteTables b).2.2.2.2.2

/-- Nothing is trimmed from an accented letter, yet it comes back as two other characters. -/
theorem trim_accented : utf8 ['é'] = [195, 169] ∧
    (trim (fun _ => true) [195, 169]).map OwnedString.bytes = some [195, 131, 194, 169] := by
  decide +kernel

/-! ## Padding -/

variable {side : Side} {width : Nat} {fill : Char} {kept : Bool}

/-- What stands around the text. -/
def Side.Shape (left right : Nat) : Side → Prop
  | .left => right = 0
  | .right => left = 0
  | .both => left = right ∨ left + 1 = right

/-- The text between fill characters, as many characters as asked for. -/
def Padded (side : Side) (cs : List Char) (width : Nat) (fill : Char) (bytes : List UInt8) : Prop :=
  ∃ left right, side.Shape left right ∧
    bytes = utf8 (replicate left fill ++ cs ++ replicate right fill) ∧
    left + cs.length + right = max width cs.length

/-- `pushStr` succeeded. -/
def Copied (alloc : Grants) (side : Side) (s : List UInt8) (width : Nat) (fill : Char) : Prop :=
  ∃ res, padCall alloc side s width fill = some (true, res)

/-- The result is padded exactly if there is nothing to pad or no character takes two bytes, and the
text could be copied. There is one if there is memory for it. -/
def PadsAscii (alloc : Grants) (side : Side) (cs : List Char) (width : Nat) (fill : Char)
    (result : Option OwnedString) : Prop :=
  (∀ res, result = some res → (Padded side cs width fill res.bytes ↔
    (width ≤ cs.length ∨ (utf8 cs).length = cs.length) ∧
      (cs ≠ [] → Copied alloc side (utf8 cs) width fill))) ∧
  ((∀ n, alloc n = true) → 4 * width + (utf8 cs).length ≤ maxBufferCapacity →
    result.isSome ∧ Copied alloc side (utf8 cs) width fill)

lemma split_shape (side : Side) (pad : Nat) : side.Shape (side.split pad).1 (side.split pad).2 ∧
      (side.split pad).1 + (side.split pad).2 = pad := by
  cases side with
  | left => exact ⟨rfl, rfl⟩
  | right => exact ⟨rfl, Nat.zero_add pad⟩
  | both =>
    show (pad / 2 = pad - pad / 2 ∨ pad / 2 + 1 = pad - pad / 2) ∧ pad / 2 + (pad - pad / 2) = pad
    omega

lemma fromStr_bytes (h : fromStr alloc s = some res) : res.bytes = s := by
  unfold fromStr at h
  split at h
  next heq =>
    cases h
    rcases pushStr_cases alloc new s with ⟨-, hbytes⟩ | hfailed
    · rwa [heq] at hbytes
    · cases heq.symm.trans hfailed
  next => cases h

section

variable (h : padCall alloc side (utf8 cs) width fill = some (kept, res))

include h

lemma padCall_bytes :
    ∃ left right middle, side.Shape left right ∧ left + right = width - (utf8 cs).length ∧
      res.bytes = utf8 (replicate left fill ++ middle ++ replicate right fill) ∧
      (kept = true ∧ middle = cs ∨ kept = false ∧ middle = [] ∧ (utf8 cs).length < width) := by
  obtain ⟨hshape, hsum⟩ := split_shape side (width - (utf8 cs).length)
  unfold padCall at h
  split at h
  next hge =>
    obtain ⟨res₁, hfrom, heq⟩ := map_eq_some_iff.1 h
    cases heq
    have hzero : width - (utf8 cs).length = 0 := Nat.sub_eq_zero_of_le hge
    rw [hzero] at hshape hsum ⊢
    refine ⟨_, _, cs, hshape, hsum, ?_, .inl ⟨rfl, rfl⟩⟩
    rw [fromStr_bytes hfrom, Nat.eq_zero_of_add_eq_zero_right hsum,
      Nat.eq_zero_of_add_eq_zero_left hsum]
    exact congrArg utf8 (append_nil cs).symm
  next hlt =>
    obtain ⟨res₁, hcap, h⟩ := bind_eq_some_iff.1 h
    obtain ⟨res₂, hleft, h⟩ := bind_eq_some_iff.1 h
    obtain ⟨res₃, hright, h⟩ := bind_eq_some_iff.1 h
    cases h
    have hbytes₂ := pushAll_bytes hleft
    rw [ensureCapacity_bytes hcap] at hbytes₂
    rcases pushStr_cases alloc res₂ (utf8 cs) with ⟨hpushed, hbytes⟩ | hfailed
    · refine ⟨_, _, cs, hshape, hsum, ?_, .inl ⟨hpushed, rfl⟩⟩
      rw [pushAll_bytes hright, hbytes, hbytes₂, utf8_append, utf8_append]
      rfl
    · rw [hfailed] at hright ⊢
      refine ⟨_, _, [], hshape, hsum, ?_, .inr ⟨rfl, rfl, not_le.1 hlt⟩⟩
      rw [pushAll_bytes hright, hbytes₂, append_nil, utf8_append]
      rfl

lemma padCall_padded :
    Padded side cs width fill res.bytes ↔ (width ≤ cs.length ∨ (utf8 cs).length = cs.length) ∧
        (cs ≠ [] → Copied alloc side (utf8 cs) width fill) := by
  obtain ⟨left, right, middle, hshape, hsum, hbytes, hmiddle⟩ := padCall_bytes h
  have hle := length_le_utf8 cs
  have hcopied : Copied alloc side (utf8 cs) width fill ↔ kept = true := by
    simp [Copied, h, Option.some.injEq, Prod.mk.injEq, exists_and_left, and_true]
  have hempty : cs = [] ↔ cs.length = 0 := length_eq_zero_iff.symm
  rw [hcopied, ne_eq, hempty]
  constructor
  · rintro ⟨left', right', -, hbytes', hlength⟩
    -- both texts have as many characters
    have hcount := congrArg charCount (hbytes.symm.trans hbytes')
    simp only [charCount_utf8, length_append, length_replicate] at hcount
    rcases hmiddle with ⟨hkept, rfl⟩ | ⟨-, rfl, hlt⟩
    · exact ⟨by omega, fun _ => hkept⟩
    · rw [length_nil] at hcount
      omega
  · rintro ⟨hascii, hkept⟩
    have hcs : middle = cs := by
      rcases hmiddle with ⟨-, heq⟩ | ⟨hfailed, rfl, -⟩
      · exact heq
      · by_contra hne
        exact absurd (hkept fun hzero => hne (hempty.2 hzero).symm) (by rw [hfailed]; decide)
    rw [hcs] at hbytes
    exact ⟨left, right, hshape, hbytes, by omega⟩

end

lemma pushStr_granted (halloc : ∀ n, alloc n = true)
    (h : res.bytes.length + s.length ≤ maxBufferCapacity) :
    (res.pushStr alloc s).1 = true ∧ (res.pushStr alloc s).2.bytes = res.bytes ++ s := by
  unfold OwnedString.pushStr
  dsimp only
  rw [if_neg (not_lt.2 h), halloc, if_pos rfl]
  split <;> exact ⟨rfl, rfl⟩

lemma length_utf8_replicate (n : Nat) (c : Char) : (utf8 (replicate n c)).length ≤ 4 * n := by
  have hc : (utf8EncodeChar c).length ≤ 4 := by
    rw [← encode_eq, length_encode, lenUtf8]
    split_ifs <;> omega
  rw [utf8, length_flatMap, map_replicate, sum_replicate_nat, Nat.mul_comm 4]
  exact Nat.mul_le_mul_left n hc

lemma copied_granted (halloc : ∀ n, alloc n = true)
    (h : 4 * width + s.length ≤ maxBufferCapacity) : Copied alloc side s width fill := by
  unfold Copied padCall
  split
  next =>
    have hpushed := (@pushStr_granted alloc s new halloc (by simp [new]; omega)).1
    refine ⟨(new.pushStr alloc s).2, ?_⟩
    rw [fromStr, ← Prod.eta (new.pushStr alloc s), hpushed]
    rfl
  next hlt =>
    obtain ⟨-, hsum⟩ := split_shape side (width - s.length)
    generalize side.split (width - s.length) = pad at hsum ⊢
    have hleft := length_utf8_replicate pad.1 fill
    have hright := length_utf8_replicate pad.2 fill
    obtain ⟨res₁, hcap⟩ := isSome_iff_exists.1
      (@ensureCapacity_isSome alloc new width halloc (by omega))
    have hbytes₁ : res₁.bytes.length = 0 := congrArg length (ensureCapacity_bytes hcap)
    obtain ⟨res₂, hpush₂⟩ := isSome_iff_exists.1
      (@pushAll_isSome alloc (replicate pad.1 fill) res₁ halloc (by omega))
    have hbytes₂ := congrArg length (pushAll_bytes hpush₂)
    rw [length_append] at hbytes₂
    obtain ⟨hpushed, hbytes₃⟩ := @pushStr_granted alloc s res₂ halloc (by omega)
    have hlength₃ := congrArg length hbytes₃
    rw [length_append] at hlength₃
    obtain ⟨res₄, hpush₄⟩ := isSome_iff_exists.1
      (@pushAll_isSome alloc (replicate pad.2 fill) (res₂.pushStr alloc s).2 halloc (by omega))
    refine ⟨res₄, ?_⟩
    rw [show withCapacity alloc width = some res₁ from hcap]
    simp [hpush₂, hpush₄, hpushed]

lemma padsAscii_padCall : PadsAscii alloc side cs width fill
    ((padCall alloc side (utf8 cs) width fill).map Prod.snd) := by
  refine ⟨fun res h => ?_, fun halloc h => ?_⟩
  · obtain ⟨⟨kept, res⟩, hcall, rfl⟩ := map_eq_some_iff.1 h
    exact padCall_padded hcall
  · obtain ⟨res, hcall⟩ := @copied_granted alloc _ side width fill halloc h
    exact ⟨by simp [hcall], res, hcall⟩

/-- Padding is exact if every character is one byte, and for other texts if they are wide enough. -/
theorem text_pads (alloc : Grants) (cs : List Char) (width : Nat) (fill : Char) :
    PadsAscii alloc .left cs width fill (padLeft alloc (utf8 cs) width fill) ∧
    PadsAscii alloc .right cs width fill (padRight alloc (utf8 cs) width fill) ∧
    PadsAscii alloc .both cs width fill (center alloc (utf8 cs) width fill) :=
  ⟨padsAscii_padCall, padsAscii_padCall, padsAscii_padCall⟩

/-- An accented letter is taken for two characters, so nothing is added to it. -/
theorem padLeft_accented : utf8 ['é'] = [195, 169] ∧
    (padLeft (fun _ => true) [195, 169] 2 ' ').map OwnedString.bytes = some [195, 169] ∧
    charCount [195, 169] = 1 := by
  decide +kernel

end Arandu.Stdlib.Text
