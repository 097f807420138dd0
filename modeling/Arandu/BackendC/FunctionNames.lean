import Mathlib.Data.List.Destutter
import Mathlib.Data.List.Sort

/-!
# Names of functions in the C translation unit

Functions are told apart by their host names, dotted paths such as `geometry.Point.norm`; the
program is refused when two of them agree. The C backend maps host names to identifiers: a dot
becomes two underscores and every other separator one, names that libc declares are replaced,
internal functions get a prefix, and exports keep the name they ask for.

`cNames_distinct_iff` says when different functions get different identifiers: identifiers agree
exactly when the names agree up to the spelling of separators (`profile`).
-/

namespace Arandu.BackendC

open List

abbrev Name := List Char

inductive Visibility where
  | priv
  | mod
  | internal
  | pub
deriving DecidableEq, Repr

/-- A defined function and what the symbol table says about it. -/
structure Func where
  symbol : Nat
  name : Name
  /-- entry of `host_function_names` -/
  hostName : Option Name
  visibility : Visibility
  exported : Bool
  tooling : Bool
  /-- `@Export` records the linker name -/
  recorded : exported = true → hostName.isSome = true
deriving DecidableEq

def Func.hostFuncName (f : Func) : Name := f.hostName.getD f.name

/-! ## Accepted programs -/

variable (funcs : List Func)

/-- `N021`: the first function of a name, in the order of symbols, and every later one; two
exports are left to `T049`. -/
def duplicateFunctionSymbols : List (Func × Func) :=
  (funcs.map Func.hostFuncName).dedup.flatMap fun name =>
    let definitions := (funcs.filter fun f => f.hostFuncName = name).insertionSort
      fun f g => f.symbol ≤ g.symbol
    match definitions.destutter fun f g => f.symbol ≠ g.symbol with
    | [] => []
    | first :: rest =>
      (rest.filter fun other => !(first.exported && other.exported)).map fun other => (first, other)

/-- Two exports of one name. The source sorts the names and compares neighbours. -/
def exportedSymbolCollision : Option (Func × Func) :=
  let named := funcs.filter fun f => f.exported && f.hostName.isSome
  (named.product named).find? fun (f, g) => f.hostName = g.hostName && f.symbol != g.symbol

/-! ## C names -/

def sanitizeCChar (c : Char) : Name :=
  if c.isAlphanum then [c]
  else if c = '.' then ['_', '_']
  else ['_']

def sanitizeCChars (name : Name) : Name := name.flatMap sanitizeCChar

def reservedCNames : List (Name × Name) :=
  [("stdin".toList, "ar_stdin".toList), ("stdout".toList, "ar_stdout".toList),
    ("stderr".toList, "ar_stderr".toList), ("write".toList, "ar_write".toList),
    ("read".toList, "ar_read".toList), ("close".toList, "ar_close".toList),
    ("open".toList, "ar_open".toList), ("remove".toList, "ar_remove".toList),
    ("rename".toList, "ar_rename".toList), ("abort".toList, "ar_abort".toList),
    ("exit".toList, "ar_exit".toList), ("free".toList, "ar_user_free".toList),
    ("alloc".toList, "ar_user_alloc".toList)]

def sanitizeCIdent (name : Name) : Name :=
  match reservedCNames.lookup name with
  | some replacement => replacement
  | none => sanitizeCChars name

def Func.isMain (f : Func) : Bool := f.hostFuncName = "main".toList

/-- A library without `main` has no internal functions. -/
def internalFunctions : List Func :=
  if funcs.any Func.isMain then
    funcs.filter fun f => !f.isMain &&
      ((f.visibility = .priv || f.visibility = .mod) && !f.exported && !f.tooling)
  else []

section Names

variable (funcs : List Func) (f g : Func)

def isInternalFunction : Bool :=
  (internalFunctions funcs).any fun internal => internal.symbol = f.symbol

def cFunctionName : Name :=
  if isInternalFunction funcs f then "ar__".toList ++ sanitizeCChars f.hostFuncName
  else if f.exported then f.hostFuncName
  else sanitizeCIdent f.hostFuncName

/-! ## Names up to separators -/

def separatorWidth (c : Char) : Nat := if c = '.' then 2 else 1

/-- Every letter and digit with the width of the separators before it, and the width of the
separators at the end. -/
def profile : Nat → Name → List (Nat × Char) × Nat
  | width, [] => ([], width)
  | width, c :: name =>
    if c.isAlphanum then ((width, c) :: (profile 0 name).1, (profile 0 name).2)
    else profile (width + separatorWidth c) name

/-- The name whose characters are mapped: internal functions live below `ar`. -/
def linkName : Name :=
  if isInternalFunction funcs f then "ar.".toList ++ f.hostFuncName
  else if f.exported then f.hostFuncName
  else (reservedCNames.lookup f.hostFuncName).getD f.hostFuncName

/-- The name is emitted as it is. -/
def IsVerbatim : Prop := isInternalFunction funcs f = false ∧ f.exported = true

/-- Nothing in the name would be mapped. -/
def IsPlain (name : Name) : Prop := ∀ c ∈ name, c.isAlphanum = true ∨ c = '_'

/-- The names agree up to separators, and what is emitted verbatim is plain. -/
structure Clash : Prop where
  mapped : ¬ (IsVerbatim funcs f ∧ IsVerbatim funcs g)
  left : IsVerbatim funcs f → IsPlain (linkName funcs f)
  right : IsVerbatim funcs g → IsPlain (linkName funcs g)
  profile : profile 0 (linkName funcs f) = profile 0 (linkName funcs g)

end Names

/-! ## When identifiers agree -/

attribute [local simp] separatorWidth

lemma profile_sanitizeCChars (width : Nat) (name : Name) :
    profile width (sanitizeCChars name) = profile width name := by
  induction name generalizing width with
  | nil => rfl
  | cons c name ih =>
    have hcons : sanitizeCChars (c :: name) = sanitizeCChar c ++ sanitizeCChars name := rfl
    have hbar : Char.isAlphanum '_' = false := by decide
    rw [hcons, sanitizeCChar]
    by_cases hc : c.isAlphanum
    · simp [profile, hc, ih]
    · by_cases hdot : c = '.'
      · subst hdot
        simp [profile, ih]
      · simp [profile, hc, hdot, ih]

/-- The identifier with a given profile. -/
def render (p : List (Nat × Char) × Nat) : Name :=
  p.1.flatMap (fun (width, c) => List.replicate width '_' ++ [c]) ++ List.replicate p.2 '_'

lemma render_profile (width : Nat) (name : Name) :
    render (profile width name) = List.replicate width '_' ++ sanitizeCChars name := by
  induction name generalizing width with
  | nil => simp [render, profile, sanitizeCChars]
  | cons c name ih =>
    have hcons : sanitizeCChars (c :: name) = sanitizeCChar c ++ sanitizeCChars name := rfl
    rw [hcons, sanitizeCChar, profile]
    by_cases hc : c.isAlphanum
    · have hrest := ih 0
      simp only [replicate_zero] at hrest
      simp [hc, render, ← hrest]
    · rw [if_neg hc, if_neg hc, ih]
      by_cases hdot : c = '.'
      · simp [hdot, replicate_add]
      · simp [hdot, replicate_add]

lemma sanitizeCChars_eq_iff {u v : Name} :
    sanitizeCChars u = sanitizeCChars v ↔ profile 0 u = profile 0 v := by
  constructor
  · intro h
    rw [← profile_sanitizeCChars 0 u, h, profile_sanitizeCChars]
  · intro h
    have hu := render_profile 0 u
    rw [h, render_profile] at hu
    exact hu.symm

lemma isPlain_sanitizeCChars (name : Name) : IsPlain (sanitizeCChars name) := by
  intro c hc
  obtain ⟨a, -, ha⟩ := mem_flatMap.1 hc
  unfold sanitizeCChar at ha
  split at ha
  next halnum =>
    rw [mem_singleton.1 ha]
    exact .inl halnum
  · split at ha <;> simp_all

lemma sanitizeCChars_of_isPlain {name : Name} (h : IsPlain name) : sanitizeCChars name = name := by
  induction name with
  | nil => rfl
  | cons c name ih =>
    have hc : sanitizeCChar c = [c] := by
      unfold sanitizeCChar
      rcases h c mem_cons_self with hc | rfl
      · rw [if_pos hc]
      · rfl
    show sanitizeCChar c ++ sanitizeCChars name = c :: name
    rw [hc, ih fun a ha => h a (mem_cons_of_mem c ha), singleton_append]

section Sound

variable {funcs : List Func} {f g : Func}

lemma cFunctionName_of_isVerbatim (h : IsVerbatim funcs f) :
    cFunctionName funcs f = linkName funcs f := by
  simp [cFunctionName, linkName, h.1, h.2]

lemma cFunctionName_of_mapped (h : ¬ IsVerbatim funcs f) :
    cFunctionName funcs f = sanitizeCChars (linkName funcs f) := by
  unfold cFunctionName linkName
  split
  · rfl
  next hinternal =>
    rw [if_neg fun hexported => h ⟨by simpa using hinternal, hexported⟩,
      if_neg fun hexported => h ⟨by simpa using hinternal, hexported⟩, sanitizeCIdent]
    cases hreserved : reservedCNames.lookup f.hostFuncName with
    | none => rfl
    | some replacement =>
      -- the replacements are identifiers already
      have hfixed : ∀ entry ∈ reservedCNames, sanitizeCChars entry.2 = entry.2 := by decide
      obtain ⟨before, after, hentries, -⟩ := lookup_eq_some_iff.1 hreserved
      have hmem : (f.hostFuncName, replacement) ∈ reservedCNames := by simp [hentries]
      exact (hfixed _ hmem).symm

lemma verbatim_eq_mapped_iff {u v : Name} :
    u = sanitizeCChars v ↔ IsPlain u ∧ profile 0 u = profile 0 v := by
  constructor
  · intro h
    have hplain : IsPlain u := h ▸ isPlain_sanitizeCChars v
    rw [← sanitizeCChars_eq_iff, sanitizeCChars_of_isPlain hplain]
    exact ⟨hplain, h⟩
  · rintro ⟨hplain, h⟩
    rw [← sanitizeCChars_eq_iff, sanitizeCChars_of_isPlain hplain] at h
    exact h

lemma cFunctionName_eq_iff (hverbatim : IsVerbatim funcs f → IsVerbatim funcs g →
    f.hostFuncName ≠ g.hostFuncName) :
    cFunctionName funcs f = cFunctionName funcs g ↔ Clash funcs f g := by
  by_cases hf : IsVerbatim funcs f <;> by_cases hg : IsVerbatim funcs g
  · have hlink : ∀ {h}, IsVerbatim funcs h → linkName funcs h = h.hostFuncName := by
      intro h hh
      simp [linkName, hh.1, hh.2]
    rw [cFunctionName_of_isVerbatim hf, cFunctionName_of_isVerbatim hg, hlink hf, hlink hg]
    exact ⟨fun h => absurd h (hverbatim hf hg), fun h => absurd ⟨hf, hg⟩ h.mapped⟩
  · rw [cFunctionName_of_isVerbatim hf, cFunctionName_of_mapped hg, verbatim_eq_mapped_iff]
    exact ⟨fun h => ⟨fun hb => hg hb.2, fun _ => h.1, fun hv => absurd hv hg, h.2⟩,
      fun h => ⟨h.left hf, h.profile⟩⟩
  · rw [cFunctionName_of_isVerbatim hg, cFunctionName_of_mapped hf, eq_comm, verbatim_eq_mapped_iff]
    exact ⟨fun h => ⟨fun hb => hf hb.1, fun hv => absurd hv hf, fun _ => h.1, h.2.symm⟩,
      fun h => ⟨h.right hg, h.profile.symm⟩⟩
  · rw [cFunctionName_of_mapped hf, cFunctionName_of_mapped hg, sanitizeCChars_eq_iff]
    exact ⟨fun h => ⟨fun hb => hf hb.1, fun hv => absurd hv hf, fun hv => absurd hv hg, h⟩,
      fun h => h.profile⟩

lemma hostFuncName_ne_of_exports (hT049 : exportedSymbolCollision funcs = none) (hf : f ∈ funcs)
    (hg : g ∈ funcs) (hfe : f.exported = true) (hge : g.exported = true)
    (hne : f.symbol ≠ g.symbol) : f.hostFuncName ≠ g.hostFuncName := by
  intro heq
  have hnamed : ∀ h ∈ funcs, h.exported = true →
      h ∈ funcs.filter fun h => h.exported && h.hostName.isSome := by
    intro h hh hexported
    exact mem_filter.2 ⟨hh, by rw [hexported, h.recorded hexported]; rfl⟩
  have hpair := find?_eq_none.1 hT049 (f, g) (pair_mem_product.2 ⟨hnamed f hf hfe, hnamed g hg hge⟩)
  obtain ⟨n, hn⟩ := Option.isSome_iff_exists.1 (f.recorded hfe)
  obtain ⟨m, hm⟩ := Option.isSome_iff_exists.1 (g.recorded hge)
  simp only [Func.hostFuncName, hn, Option.getD_some] at heq
  simp [hn, hm, heq, hne] at hpair

/-- Different functions of a program that passed the checks get different identifiers exactly
when no two of them have link names that agree up to separators. -/
theorem cNames_distinct_iff {emitted : List Func} (hemitted : emitted ⊆ funcs)
    (hT049 : exportedSymbolCollision funcs = none) :
    (∀ f ∈ emitted, ∀ g ∈ emitted, f.symbol ≠ g.symbol →
      cFunctionName funcs f ≠ cFunctionName funcs g) ↔
    ∀ f ∈ emitted, ∀ g ∈ emitted, f.symbol ≠ g.symbol → ¬ Clash funcs f g := by
  refine forall₂_congr fun f hf => forall₂_congr fun g hg => forall_congr' fun hne => ?_
  refine not_congr (cFunctionName_eq_iff fun hfv hgv => ?_)
  exact hostFuncName_ne_of_exports hT049 (hemitted hf) (hemitted hg) hfv.2 hgv.2 hne

end Sound

/-! ## A method and a function -/

def publicFunc (symbol : Nat) (host : Name) : Func where
  symbol := symbol
  name := host
  hostName := some host
  visibility := .pub
  exported := false
  tooling := false
  recorded := nofun

theorem cNames_distinct_iff_letters :
    let funcs := [publicFunc 0 "m.a".toList, publicFunc 1 "m.b".toList]
    exportedSymbolCollision funcs = none ∧
      ∀ f ∈ funcs, ∀ g ∈ funcs, f.symbol ≠ g.symbol → ¬ Clash funcs f g := by
  intro funcs
  have hT049 : exportedSymbolCollision funcs = none := by decide
  exact ⟨hT049, (cNames_distinct_iff (List.Subset.refl funcs) hT049).1 (by decide)⟩

/-- The method `A.b` and the function `A__b` of one module. -/
theorem method_and_function_collide :
    let funcs := [publicFunc 0 "m.A.b".toList, publicFunc 1 "m.A__b".toList]
    duplicateFunctionSymbols funcs = [] ∧ exportedSymbolCollision funcs = none ∧
      ∃ f ∈ funcs, ∃ g ∈ funcs, f.symbol ≠ g.symbol ∧
        cFunctionName funcs f = cFunctionName funcs g := by
  refine ⟨by decide, by decide, publicFunc 0 "m.A.b".toList, by decide,
    publicFunc 1 "m.A__b".toList, by decide, by decide, by decide⟩

end Arandu.BackendC
