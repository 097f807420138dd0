import Arandu.Amir.Types
import Mathlib.Tactic.Linarith

/-!
# The literal pool

Interned literals keep their source spelling; integer lexemes are parsed where they are
consumed. Lexemes are character lists. `parseIntLiteral` follows the compiler's parser,
including the 128-bit range of `i128::from_str_radix`, and `i128ToString` is the decimal
rendering the folder uses to intern a computed integer.
-/

namespace Arandu.Amir

open List

variable {cs s : List Char} {n : Int} {c d : Char}

inductive AmirLiteralEntry where
  | int (lexeme : List Char)
  | float (lexeme : List Char)
  | floatBits (bits : Nat)
  | str (lexeme : List Char)
  | bytes (bytes : List Nat)
  | char (lexeme : List Char)
deriving DecidableEq, Repr

/-- The pool; `index` is the inverse of `entries`, so only the entries are kept. -/
structure AmirLiteralPool where
  entries : List AmirLiteralEntry
deriving DecidableEq, Repr

namespace AmirLiteralPool

variable (pool : AmirLiteralPool)

/-- The source panics on an id the pool never produced. -/
def get? (id : LiteralId) : Option AmirLiteralEntry :=
  pool.entries[id]?

variable (e : AmirLiteralEntry)

/-- The id of an equal entry, or a fresh one at the end. -/
def intern : LiteralId × AmirLiteralPool :=
  if e ∈ pool.entries then (pool.entries.idxOf e, pool)
  else (pool.entries.length, ⟨pool.entries ++ [e]⟩)

/-- `q` keeps every id of `p`. -/
def Extends (p q : AmirLiteralPool) : Prop := p.entries <+: q.entries

lemma Extends.refl (p : AmirLiteralPool) : p.Extends p := prefix_rfl

lemma Extends.trans {p q r : AmirLiteralPool} (h₁ : p.Extends q) (h₂ : q.Extends r) :
    p.Extends r := List.IsPrefix.trans h₁ h₂

lemma Extends.get? {p q : AmirLiteralPool} (h : p.Extends q) {id : LiteralId}
    {e : AmirLiteralEntry} (hget : p.get? id = some e) : q.get? id = some e := by
  obtain ⟨rest, hrest⟩ := h
  unfold AmirLiteralPool.get? at *
  have hlt : id < p.entries.length := Library.lt_of_getElem? hget
  rw [← hrest, getElem?_append_left hlt, hget]

lemma extends_intern : pool.Extends (pool.intern e).2 := by
  unfold intern
  split
  · exact Extends.refl pool
  · exact prefix_append _ _

lemma get?_intern : (pool.intern e).2.get? (pool.intern e).1 = some e := by
  unfold intern
  split
  next hmem => exact getElem?_idxOf hmem
  · simp [get?]

end AmirLiteralPool

/-! ## Integer lexemes -/

/-- Smallest and largest `i128`. -/
def i128Min : Int := -(2 ^ 127)
def i128Max : Int := 2 ^ 127 - 1

lemma i128Max_eq : i128Max = -i128Min - 1 := by decide

lemma i128Min_le_zero : i128Min ≤ 0 := by decide

/-- `n` is representable as an `i128`. -/
def InI128 (n : Int) : Prop := i128Min ≤ n ∧ n ≤ i128Max

instance (n : Int) : Decidable (InI128 n) := inferInstanceAs (Decidable (_ ∧ _))

/-- A checked `i128` operation: the exact result when it is representable. -/
def checkedI128 (n : Int) : Option Int := if InI128 n then some n else none

/-- Value of a digit in bases up to 16. -/
def digitValue (c : Char) : Option Nat :=
  if '0' ≤ c ∧ c ≤ '9' then some (c.toNat - '0'.toNat)
  else if 'a' ≤ c ∧ c ≤ 'f' then some (c.toNat - 'a'.toNat + 10)
  else if 'A' ≤ c ∧ c ≤ 'F' then some (c.toNat - 'A'.toNat + 10)
  else none

variable (radix : Nat)

/-- The number a digit string denotes, most significant digit first. -/
def digitsValue : Nat → List Char → Option Nat
  | acc, [] => some acc
  | acc, c :: cs =>
    match digitValue c with
    | some d => if d < radix then digitsValue (acc * radix + d) cs else none
    | none => none

/-- Digits after an optional sign: an empty digit string is no number. -/
def unsignedDigits : List Char → Option Nat
  | [] => none
  | c :: cs => digitsValue radix 0 (c :: cs)

def fromStrRadix : List Char → Option Int
  | '-' :: cs => (unsignedDigits radix cs).bind fun n => checkedI128 (-(n : Int))
  | '+' :: cs => (unsignedDigits radix cs).bind fun n => checkedI128 n
  | cs => (unsignedDigits radix cs).bind fun n => checkedI128 n

/-- White space removed by `str::trim`. -/
def trim (s : List Char) : List Char :=
  ((s.dropWhile Char.isWhitespace).reverse.dropWhile Char.isWhitespace).reverse

/-- Base and digits of an unsigned lexeme. -/
def splitRadix : List Char → Nat × List Char
  | '0' :: 'x' :: cs | '0' :: 'X' :: cs => (16, cs)
  | '0' :: 'b' :: cs | '0' :: 'B' :: cs => (2, cs)
  | '0' :: 'o' :: cs | '0' :: 'O' :: cs => (8, cs)
  | cs => (10, cs)

/-- The magnitude of a lexeme: base prefix, digits, underscores dropped. -/
def parseMagnitude (body : List Char) : Option Int :=
  let (radix, digits) := splitRadix body
  let cleaned := digits.filter (· != '_')
  if cleaned.isEmpty then none else fromStrRadix radix cleaned

/-- `1_000`, `0xFF`, `-0b1010_0001`. The negation of the source
overflows on `i128::MIN` only, which no lexeme of the language spells. -/
def parseIntLiteral (s : List Char) : Option Int :=
  match trim s with
  | [] => none
  | '-' :: body => (parseMagnitude body).bind fun n => checkedI128 (-n)
  | body => parseMagnitude body

/-! ## Decimal rendering -/

/-- The decimal digits of `n`, least significant first; `fuel` bounds their number. -/
def revDigits : Nat → Nat → List Char
  | 0, _ => []
  | fuel + 1, n =>
    if n < 10 then [Nat.digitChar n]
    else Nat.digitChar (n % 10) :: revDigits fuel (n / 10)

/-- A number has at most as many decimal as binary digits. -/
def natToString (n : Nat) : List Char := (revDigits (n.log2 + 1) n).reverse

def i128ToString : Int → List Char
  | .ofNat n => natToString n
  | .negSucc n => '-' :: natToString (n + 1)

lemma digitValue_digitChar : ∀ {d : Nat}, d < 10 → digitValue (Nat.digitChar d) = some d := by
  decide

/-- What the rest of the parser needs to know about a decimal digit. -/
def IsDecimal (c : Char) : Prop := '0' ≤ c ∧ c ≤ '9'

instance (c : Char) : Decidable (IsDecimal c) := inferInstanceAs (Decidable (_ ∧ _))

lemma isDecimal_digitChar : ∀ {d : Nat}, d < 10 → IsDecimal (Nat.digitChar d) := by
  decide

lemma revDigits_isDecimal (fuel n : Nat) : ∀ c ∈ revDigits fuel n, IsDecimal c := by
  induction fuel generalizing n with
  | zero => simp [revDigits]
  | succ fuel ih =>
    unfold revDigits
    split
    next hlt => exact forall_mem_singleton.2 (isDecimal_digitChar hlt)
    · exact forall_mem_cons.2 ⟨isDecimal_digitChar (Nat.mod_lt _ (by decide)), ih _⟩

lemma revDigits_ne_nil (fuel n : Nat) : revDigits (fuel + 1) n ≠ [] := by
  unfold revDigits
  split <;> simp

lemma digitsValue_append (xs ys : List Char) (acc : Nat) :
    digitsValue radix acc (xs ++ ys) =
      (digitsValue radix acc xs).bind fun a => digitsValue radix a ys := by
  induction xs generalizing acc with
  | nil => rfl
  | cons c cs ih =>
    simp only [cons_append, digitsValue]
    cases digitValue c with
    | none => rfl
    | some d =>
      by_cases hd : d < radix
      · simp [hd, ih]
      · simp [hd]

lemma digitsValue_revDigits (fuel n : Nat) (h : n < 2 ^ fuel) :
    digitsValue 10 0 (revDigits fuel n).reverse = some n := by
  induction fuel generalizing n with
  | zero =>
    have : n = 0 := by omega
    simp [revDigits, digitsValue, this]
  | succ fuel ih =>
    unfold revDigits
    split
    next hlt => simp [digitsValue, digitValue_digitChar hlt, hlt]
    next hge =>
      have hmod : n % 10 < 10 := Nat.mod_lt _ (by decide)
      have hdiv : n / 10 < 2 ^ fuel := by
        omega
      rw [reverse_cons, digitsValue_append, ih (n / 10) hdiv]
      simp [digitsValue, digitValue_digitChar hmod]
      omega

/-! ## Rendering and parsing are inverse -/

lemma checkedI128_of_inI128 (h : InI128 n) : checkedI128 n = some n := if_pos h

lemma inI128_of_checkedI128 {m : Int} (h : checkedI128 n = some m) : m = n ∧ InI128 m := by
  unfold checkedI128 at h
  split at h
  next hn =>
    cases h
    exact ⟨rfl, hn⟩
  · cases h

lemma inI128_of_parseIntLiteral (h : parseIntLiteral s = some n) : InI128 n := by
  have hbind : ∀ {o : Option Nat} {g : Nat → Int} {n : Int},
      (o.bind fun d => checkedI128 (g d)) = some n → InI128 n := by
    intro o g n hn
    obtain ⟨d, -, hd⟩ := Option.bind_eq_some_iff.1 hn
    exact (inI128_of_checkedI128 hd).2
  have hmagnitude : ∀ {body : List Char} {n : Int}, parseMagnitude body = some n → InI128 n := by
    intro body n hn
    simp only [parseMagnitude] at hn
    split at hn
    · cases hn
    · unfold fromStrRadix at hn
      split at hn <;> exact hbind hn
  unfold parseIntLiteral at h
  split at h
  · cases h
  · obtain ⟨m, -, hm⟩ := Option.bind_eq_some_iff.1 h
    exact (inI128_of_checkedI128 hm).2
  · exact hmagnitude h

lemma IsDecimal.ne_of_lt (h : IsDecimal c) (hd : ¬ IsDecimal d) : c ≠ d :=
  fun heq => hd (heq ▸ h)

lemma isDecimal_not_whitespace (h : IsDecimal c) : Char.isWhitespace c = false := by
  have h0 : c ≠ ' ' := h.ne_of_lt (by decide)
  have h1 : c ≠ '\t' := h.ne_of_lt (by decide)
  have h2 : c ≠ '\r' := h.ne_of_lt (by decide)
  have h3 : c ≠ '\n' := h.ne_of_lt (by decide)
  simp [Char.isWhitespace, h0, h1, h2, h3]

lemma dropWhile_of_head {p : Char → Bool} (h : p c = false) : (c :: cs).dropWhile p = c :: cs := by
  simp [h]

lemma trim_eq_self {ds : List Char} (hs : s = c :: cs)
    (hr : s.reverse = d :: ds) (hc : Char.isWhitespace c = false)
    (hd : Char.isWhitespace d = false) : trim s = s := by
  have hfront : s.dropWhile Char.isWhitespace = s := by
    rw [hs]
    exact dropWhile_of_head hc
  unfold trim
  rw [hfront, hr, dropWhile_of_head hd, ← hr, reverse_reverse]

lemma splitRadix_decimal (h : ∀ c ∈ cs, IsDecimal c) : splitRadix cs = (10, cs) := by
  unfold splitRadix
  -- a decimal lexeme has no base letter in second position
  split <;> first
    | rfl
    | exact absurd (h _ (mem_cons_of_mem _ mem_cons_self)) (by decide)

lemma fromStrRadix_decimal (h : ∀ c ∈ cs, IsDecimal c) :
    fromStrRadix 10 cs = (unsignedDigits 10 cs).bind fun n => checkedI128 n := by
  unfold fromStrRadix
  split
  · exact absurd (h _ mem_cons_self) (by decide)
  · exact absurd (h _ mem_cons_self) (by decide)
  · rfl

section

variable (hdec : ∀ c ∈ cs, IsDecimal c)
include hdec

lemma trim_decimal (hne : cs ≠ []) : trim cs = cs := by
  obtain ⟨c, rest, hs⟩ := exists_cons_of_ne_nil hne
  obtain ⟨d, ds, hr⟩ := exists_cons_of_ne_nil (l := cs.reverse) (by simp [hne])
  have hc : IsDecimal c := hdec c (by simp [hs])
  have hd : IsDecimal d := hdec d (by
    rw [← mem_reverse, hr]
    simp)
  exact trim_eq_self hs hr (isDecimal_not_whitespace hc) (isDecimal_not_whitespace hd)

lemma parseMagnitude_decimal (hne : cs ≠ []) : parseMagnitude cs = fromStrRadix 10 cs := by
  have hclean : cs.filter (· != '_') = cs := by
    rw [filter_eq_self]
    intro c hc
    have : c ≠ '_' := (hdec c hc).ne_of_lt (by decide)
    simp [this]
  unfold parseMagnitude
  simp only [splitRadix_decimal hdec, hclean]
  simp [hne]

lemma parseIntLiteral_decimal (hne : cs ≠ []) : parseIntLiteral cs = fromStrRadix 10 cs := by
  unfold parseIntLiteral
  rw [trim_decimal hdec hne]
  split
  · exact absurd rfl hne
  · exact absurd (hdec '-' mem_cons_self) (by decide)
  · exact parseMagnitude_decimal hdec hne

end

lemma isDecimal_of_digitsValue {acc n : Nat} (h : digitsValue 10 acc cs = some n) :
    ∀ c ∈ cs, IsDecimal c := by
  induction cs generalizing acc with
  | nil => simp
  | cons d ds ih =>
    simp only [digitsValue] at h
    split at h
    next v hv =>
      split at h
      next hlt =>
        have hd : IsDecimal d := by
          unfold digitValue at hv
          split at hv
          next hdec => exact hdec
          -- letters stand for ten and more
          · split at hv
            · cases hv
              omega
            · split at hv
              · cases hv
                omega
              · cases hv
        exact forall_mem_cons.2 ⟨hd, ih h⟩
      · cases h
    · cases h

lemma natToString_isDecimal (n : Nat) : ∀ c ∈ natToString n, IsDecimal c := by
  intro c hc
  exact revDigits_isDecimal _ _ c (mem_reverse.1 hc)

lemma natToString_ne_nil (n : Nat) : natToString n ≠ [] := by
  simpa [natToString] using revDigits_ne_nil n.log2 n

lemma unsignedDigits_natToString (n : Nat) : unsignedDigits 10 (natToString n) = some n := by
  have hval : digitsValue 10 0 (natToString n) = some n :=
    digitsValue_revDigits (n.log2 + 1) n Nat.lt_log2_self
  cases hs : natToString n with
  | nil => exact absurd hs (natToString_ne_nil n)
  | cons c cs => rw [← hval, hs, unsignedDigits]

lemma fromStrRadix_natToString (n : Nat) : fromStrRadix 10 (natToString n) = checkedI128 n := by
  simp [fromStrRadix_decimal (natToString_isDecimal n), unsignedDigits_natToString]

lemma parseMagnitude_natToString (n : Nat) : parseMagnitude (natToString n) = checkedI128 n := by
  rw [parseMagnitude_decimal (natToString_isDecimal n) (natToString_ne_nil n),
    fromStrRadix_natToString]

lemma trim_neg_natToString (n : Nat) : trim ('-' :: natToString n) = '-' :: natToString n := by
  obtain ⟨d, ds, hr⟩ := exists_cons_of_ne_nil
    (l := (natToString n).reverse) (by simp [natToString_ne_nil n])
  have hd : IsDecimal d := natToString_isDecimal n d (by
    rw [← mem_reverse, hr]
    simp)
  exact trim_eq_self rfl (by rw [reverse_cons, hr]; rfl) (by decide)
    (isDecimal_not_whitespace hd)

lemma parseIntLiteral_neg {body : List Char} (h : trim s = '-' :: body) :
    parseIntLiteral s = (parseMagnitude body).bind fun n => checkedI128 (-n) := by
  unfold parseIntLiteral
  split
  next hs => simp [hs] at h
  next b hs =>
    rw [hs] at h
    cases h
    rfl
  next hs => exact (hs body h).elim

lemma negSucc_succ_inI128 {n : Nat} (h : InI128 (Int.negSucc n))
    (hmin : Int.negSucc n ≠ i128Min) : InI128 ((n + 1 : Nat) : Int) := by
  have hlow : i128Min ≤ Int.negSucc n := h.1
  have hmax := i128Max_eq
  constructor <;> omega

/-- Every `i128` except the smallest one is read back from its decimal rendering. -/
lemma parseIntLiteral_i128ToString (h : InI128 n) (hmin : n ≠ i128Min) :
    parseIntLiteral (i128ToString n) = some n := by
  cases n with
  | ofNat n =>
    rw [i128ToString, parseIntLiteral_decimal (natToString_isDecimal n) (natToString_ne_nil n),
      fromStrRadix_natToString]
    exact checkedI128_of_inI128 h
  | negSucc n =>
    have hbody : parseMagnitude (natToString (n + 1)) = some ((n + 1 : Nat) : Int) := by
      rw [parseMagnitude_natToString, checkedI128_of_inI128 (negSucc_succ_inI128 h hmin)]
    have hcast : -((n + 1 : Nat) : Int) = Int.negSucc n := by
      rw [← Int.neg_negSucc, neg_neg]
    rw [i128ToString, parseIntLiteral_neg (trim_neg_natToString (n + 1)), hbody,
      Option.bind_some, hcast,
      checkedI128_of_inI128 h]

/-- The smallest `i128` renders to a lexeme whose magnitude overflows. -/
lemma parseIntLiteral_i128Min : parseIntLiteral (i128ToString i128Min) = none := by
  decide +kernel

end Arandu.Amir
