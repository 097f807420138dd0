import Arandu.Library.ByteText
import Mathlib.Data.List.Basic

/-!
# Edits of the formatter

`edits_between` of `arandu_fmt/src/lib.rs` turns a source text into its formatted form by small
replacements: line by line where both have as many lines, and otherwise by a single one.

Slicing inside of a character is a panic, which is the missing result here.
-/

namespace Arandu.Fmt

open List Arandu.Library

/-! ## Slices and lines -/

/-- The text between two offsets. -/
def slice (s : List Char) (start stop : Nat) : Option (List Char) := do
  let (upTo, _) ← splitAtByte s stop
  let (_, text) ← splitAtByte upTo start
  some text

/-- `split_inclusive('\n')`. -/
def splitInclusive : List Char → List (List Char)
  | [] => []
  | c :: s =>
    if c = '\n' then [c] :: splitInclusive s
    else
      match splitInclusive s with
      | [] => [[c]]
      | line :: lines => (c :: line) :: lines

/-! ## The edits -/

structure TextEdit where
  start : Nat
  stop : Nat
  newText : List Char
deriving DecidableEq, Repr

/-- The bytes of the characters before the first one in which two texts differ. -/
def commonBytes : List Char → List Char → Nat
  | c :: s, d :: t => if c = d then c.utf8Size + commonBytes s t else 0
  | _, _ => 0

/-- `checked_add` and `u32::try_from`: a sum that does not fit `usize` does not fit `u32`. -/
def addU32 (base n : Nat) : Option Nat := if base + n < 2 ^ 32 then some (base + n) else none

def minimalEdit (old new : List Char) (base : Nat) : Option (Option TextEdit) :=
  if old = new then some none
  else do
    let start := commonBytes old new
    let (_, oldTail) ← splitAtByte old start
    let (_, newTail) ← splitAtByte new start
    let suffix := commonBytes oldTail.reverse newTail.reverse
    match addU32 base start, addU32 base (byteLen old - suffix) with
    | some first, some last =>
      let newText ← slice new start (byteLen new - suffix)
      some (some ⟨first, last, newText⟩)
    | _, _ => some none

/-- The loop over the lines. -/
def lineEdits : List (List Char × List Char) → Nat → List TextEdit → Option (List TextEdit)
  | [], _, edits => some edits
  | (oldLine, newLine) :: lines, base, edits => do
    let edit ← minimalEdit oldLine newLine base
    if base + byteLen oldLine < 2 ^ 64 then
      lineEdits lines (base + byteLen oldLine) (edits ++ edit.toList)
    else some []

def editsBetween (source formatted : List Char) : Option (List TextEdit) :=
  let sourceLines := splitInclusive source
  let formattedLines := splitInclusive formatted
  if sourceLines.length ≠ formattedLines.length then
    (minimalEdit source formatted 0).map Option.toList
  else lineEdits (sourceLines.zip formattedLines) 0 []

/-! ## Applying edits -/

/-- The bytes of the edit are replaced. -/
def TextEdit.apply (e : TextEdit) (s : List Char) : Option (List Char) := do
  let (before, _) ← splitAtByte s e.start
  let (_, after) ← splitAtByte s e.stop
  some (before ++ e.newText ++ after)

/-- The last edit is applied first. -/
def applyEdits (edits : List TextEdit) (s : List Char) : Option (List Char) :=
  edits.foldrM TextEdit.apply s

/-- The offset is between two characters, or at one of the ends. -/
def IsCharBoundary (s : List Char) (n : Nat) : Prop := (splitAtByte s n).isSome

variable {s old new old' new' : List Char} {base : Nat} {edits edits' : List TextEdit}

lemma flatten_splitInclusive (s : List Char) : (splitInclusive s).flatten = s := by
  induction s with
  | nil => rfl
  | cons c s ih =>
    rw [splitInclusive]
    split_ifs with hc
    · simp [ih]
    · cases hlines : splitInclusive s with
      | nil => simpa [hlines] using ih
      | cons line lines => simpa [hlines] using ih

/-- Two texts split where they begin to differ. -/
lemma commonBytes_split (s t : List Char) :
    ∃ common s' t', s = common ++ s' ∧ t = common ++ t' ∧ commonBytes s t = byteLen common := by
  fun_induction commonBytes s t with
  | case1 s c t ih =>
    obtain ⟨common, s', t', rfl, rfl, heq⟩ := ih
    exact ⟨c :: common, s', t', rfl, rfl, by simp [heq, byteLen]⟩
  | case2 | case3 => exact ⟨[], _, _, rfl, rfl, rfl⟩

/-- Read from the end, they split where they begin to be the same. -/
lemma commonBytes_reverse_split (s t : List Char) : ∃ s' t' common, s = s' ++ common ∧
    t = t' ++ common ∧ commonBytes s.reverse t.reverse = byteLen common := by
  obtain ⟨common, s', t', hs, ht, heq⟩ := commonBytes_split s.reverse t.reverse
  refine ⟨s'.reverse, t'.reverse, common.reverse, ?_, ?_, by simp [heq]⟩
  · rw [reverse_eq_iff.1 hs, reverse_append]
  · rw [reverse_eq_iff.1 ht, reverse_append]

/-! ## What the edits do -/

/-- Where the old text stands at an offset, the edits replace it by the new one. -/
structure Turns (base : Nat) (old new : List Char) (edits : List TextEdit) : Prop where
  apply : ∀ before after, byteLen before = base →
    applyEdits edits (before ++ old ++ after) = some (before ++ new ++ after)
  inside : ∀ e ∈ edits, ∃ p o q, old = p ++ o ++ q ∧ e.start = base + byteLen p ∧
    e.stop = e.start + byteLen o
  sorted : edits.Pairwise fun e e' => e.stop ≤ e'.start

lemma Turns.refl (base : Nat) (s : List Char) : Turns base s s [] :=
  ⟨fun _ _ _ => rfl, nofun, .nil⟩

lemma Turns.single (p o n q : List Char) (base : Nat) :
    Turns base (p ++ o ++ q) (p ++ n ++ q)
      [⟨base + byteLen p, base + (byteLen p + byteLen o), n⟩] := by
  refine ⟨fun before after hbefore => ?_, ?_, pairwise_singleton _ _⟩
  · have hstart := splitAtByte_append (before ++ p) (o ++ q ++ after)
    have hstop := splitAtByte_append (before ++ p ++ o) (q ++ after)
    simp only [byteLen_append, hbefore, append_assoc] at hstart hstop
    simp [applyEdits, TextEdit.apply, hstart, hstop]
  · rintro e he
    obtain rfl := mem_singleton.1 he
    exact ⟨p, o, q, rfl, rfl, (Nat.add_assoc _ _ _).symm⟩

lemma Turns.append (h : Turns base old new edits)
    (h' : Turns (base + byteLen old) old' new' edits') :
    Turns base (old ++ old') (new ++ new') (edits ++ edits') := by
  refine ⟨fun before after hbefore => ?_, fun e he => ?_, ?_⟩
  · -- the edits of the second text run first and leave the first where it was
    have hsecond := h'.apply (before ++ old) after (by simp [hbefore])
    have hfirst := h.apply before (new' ++ after) hbefore
    simp only [applyEdits, append_assoc] at hfirst hsecond ⊢
    rw [foldrM_append, hsecond]
    exact hfirst
  · rcases mem_append.1 he with he | he
    · obtain ⟨p, o, q, rfl, hstart, hstop⟩ := h.inside e he
      exact ⟨p, o, q ++ old', by simp, hstart, hstop⟩
    · obtain ⟨p, o, q, rfl, hstart, hstop⟩ := h'.inside e he
      exact ⟨old ++ p, o, q, by simp, by simp [hstart, Nat.add_assoc], hstop⟩
  · refine pairwise_append.2 ⟨h.sorted, h'.sorted, fun e he e' he' => ?_⟩
    obtain ⟨p, o, q, rfl, hstart, hstop⟩ := h.inside e he
    obtain ⟨p', o', q', -, hstart', -⟩ := h'.inside e' he'
    simp only [byteLen_append] at hstart'
    omega

lemma minimalEdit_turns (new : List Char) (hsize : base + byteLen old < 2 ^ 32) :
    ∃ edit, minimalEdit old new base = some edit ∧ Turns base old new edit.toList := by
  by_cases heq : old = new
  · exact ⟨none, if_pos heq, heq ▸ .refl base old⟩
  -- both texts begin with `p`, and what is left of both ends with `q`
  obtain ⟨p, oldTail, newTail, rfl, rfl, hp⟩ := commonBytes_split old new
  obtain ⟨o, n, q, rfl, rfl, hq⟩ := commonBytes_reverse_split oldTail newTail
  have hlen : ∀ x, byteLen (p ++ (x ++ q)) - byteLen q = byteLen p + byteLen x := by
    intro x
    simp only [byteLen_append]
    omega
  have hslice : slice (p ++ (n ++ q)) (byteLen p) (byteLen p + byteLen n) = some n := by
    have hstop := splitAtByte_append (p ++ n) q
    rw [byteLen_append, append_assoc] at hstop
    simp [slice, hstop]
  refine ⟨some ⟨base + byteLen p, base + (byteLen p + byteLen o), n⟩, ?_, ?_⟩
  · simp only [byteLen_append] at hsize
    simp only [minimalEdit, if_neg heq, hp, splitAtByte_append, Option.bind_eq_bind,
      Option.bind_some, hq, hlen, hslice, addU32]
    rw [if_pos (by omega), if_pos (by omega)]
  · simpa using Turns.single p o n q base

lemma lineEdits_turns (lines : List (List Char × List Char)) (h : Turns 0 old new edits)
    (hsize : byteLen (old ++ (lines.map Prod.fst).flatten) < 2 ^ 32) :
    ∃ edits', lineEdits lines (byteLen old) edits = some edits' ∧
      Turns 0 (old ++ (lines.map Prod.fst).flatten) (new ++ (lines.map Prod.snd).flatten)
        edits' := by
  -- `old` and `new` are the lines already paired, and the base is the length of `old`
  induction lines generalizing old new edits with
  | nil => exact ⟨edits, rfl, by simpa using h⟩
  | cons line lines ih =>
    obtain ⟨oldLine, newLine⟩ := line
    simp only [map_cons, flatten_cons, ← append_assoc] at hsize ⊢
    have hline : byteLen old + byteLen oldLine < 2 ^ 32 := by
      simp only [byteLen_append] at hsize
      omega
    obtain ⟨edit, hedit, hturns⟩ := minimalEdit_turns newLine hline
    obtain ⟨edits', hrest, hall⟩ := ih (h.append (by rwa [Nat.zero_add])) hsize
    refine ⟨edits', ?_, hall⟩
    rw [byteLen_append] at hrest
    simp only [lineEdits, hedit, Option.bind_eq_bind, Option.bind_some]
    rw [if_pos (by omega), hrest]

lemma editsBetween_turns (t : List Char) (hsize : byteLen s < 2 ^ 32) :
    ∃ edits, editsBetween s t = some edits ∧ Turns 0 s t edits := by
  rw [editsBetween]
  split_ifs with hlines
  · obtain ⟨edit, hedit, hturns⟩ := minimalEdit_turns t (by rwa [Nat.zero_add])
    exact ⟨_, by rw [hedit]; rfl, hturns⟩
  · have hlength := not_not.1 hlines
    have hline := lineEdits_turns ((splitInclusive s).zip (splitInclusive t)) (.refl 0 [])
    rw [map_fst_zip (by omega), map_snd_zip (by omega), nil_append, nil_append,
      flatten_splitInclusive, flatten_splitInclusive] at hline
    exact hline hsize

/-- The edits between two texts turn the first into the second. -/
theorem edits_reproduce_formatted {source formatted : List Char} (hsize : byteLen source < 2 ^ 32) :
    ∃ edits, editsBetween source formatted = some edits ∧
      edits.Pairwise (fun e e' => e.stop ≤ e'.start) ∧
      (∀ e ∈ edits, e.start ≤ e.stop ∧ IsCharBoundary source e.start ∧
        IsCharBoundary source e.stop) ∧
      applyEdits edits source = some formatted := by
  obtain ⟨edits, hedits, hturns⟩ := editsBetween_turns formatted hsize
  refine ⟨edits, hedits, hturns.sorted, fun e he => ?_, ?_⟩
  · obtain ⟨p, o, q, rfl, hstart, hstop⟩ := hturns.inside e he
    rw [Nat.zero_add] at hstart
    have hfirst := splitAtByte_append p (o ++ q)
    have hlast := splitAtByte_append (p ++ o) q
    rw [byteLen_append, ← hstart, ← hstop] at hlast
    rw [← append_assoc, ← hstart] at hfirst
    exact ⟨by omega, by rw [IsCharBoundary, hfirst]; rfl, by rw [IsCharBoundary, hlast]; rfl⟩
  · simpa using hturns.apply [] [] rfl

/-- Two lines with letters of two bytes. -/
theorem edits_reproduce_formatted_lines : ∃ edits,
    editsBetween "éa\n b".toList "éé\nb".toList = some edits ∧
      applyEdits edits "éa\n b".toList = some "éé\nb".toList := by
  obtain ⟨edits, hedits, -, -, happly⟩ :=
    @edits_reproduce_formatted "éa\n b".toList "éé\nb".toList (by decide)
  exact ⟨edits, hedits, happly⟩

end Arandu.Fmt
