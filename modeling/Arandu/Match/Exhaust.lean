import Arandu.Match.FirstMatch

/-!
# Exhaustiveness

`check_match_exhaustiveness` looks at nominal enums only, and there at the variants the arms
without a guard name, not at the patterns for their payloads.
-/

namespace Arandu.Match

open Arandu.Amir Pattern List

/-! ## The check -/

/-- What the check reads of the symbol table. -/
structure Symbols where
  /-- `lookup_associated_member` -/
  associatedMember : SymbolId → String → Option SymbolId
  /-- the kind of the symbol is `AssociatedFunc` -/
  isAssociatedFunc : SymbolId → Bool
  /-- `try_get(..).name`, cut at its dots -/
  name : SymbolId → Option (List String)
  /-- the implementers of a sealed interface; `none` for every other type -/
  sealedImplementers : SymbolId → Option (List SymbolId)
  /-- `lookup_type` in the global scope -/
  lookupType : List String → Option SymbolId

/-- What is reported, as T024. -/
inductive Report where
  | variants (missing : List String)
  | implementers (missing : List String)
deriving DecidableEq, Repr

def patternCoversAll : Pattern → Bool
  | .wildcard | .bind => true
  | _ => false

/-- Of the symbols of a variant, the associated member. -/
def enumVariantSymbolIds (symbols : Symbols) (info : TypeInfo) (enumId : SymbolId) :
    List SymbolId :=
  (info.enumVariants.filter fun e => e.owner == enumId && symbols.isAssociatedFunc e.symbol).map
    VariantInfo.symbol

def memberOf (symbols : Symbols) (enumId : SymbolId) (path : List String) : List SymbolId :=
  (path.getLast?.bind (symbols.associatedMember enumId)).toList

mutual

def collectPatternVariantSymbols (symbols : Symbols) (enumId : SymbolId) :
    Pattern → List SymbolId
  | .enum _ variant _ _ => memberOf symbols enumId variant
  | .typeTuple name _ => memberOf symbols enumId name
  | .struct _ path _ _ => memberOf symbols enumId path
  | .or alts => collectAlternatives symbols enumId alts
  | _ => []

def collectAlternatives (symbols : Symbols) (enumId : SymbolId) : List Pattern → List SymbolId
  | [] => []
  | p :: ps =>
    collectPatternVariantSymbols symbols enumId p ++ collectAlternatives symbols enumId ps

end

variable (symbols : Symbols)

def missingName (enumId : SymbolId) (s : SymbolId) : String :=
  match symbols.name s with
  | some full =>
    let enumName := (symbols.name enumId).getD ["enum"]
    String.intercalate "." (if enumName.isPrefixOf full then full.drop enumName.length else full)
  | none => "variant"

def checkSealedInterfaceExhaustiveness (implementations : List SymbolId)
    (arms : List Arm) : Option Report :=
  if implementations.isEmpty then none
  else if arms.any fun arm => !arm.guarded && patternCoversAll arm.pattern then none
  else
    let covered := (arms.filter fun arm => !arm.guarded).filterMap fun arm =>
      match arm.pattern with
      | .struct _ path _ _ => path.getLast?.bind fun name => symbols.lookupType [name]
      | .typeTuple name _ => symbols.lookupType name
      | _ => none
    let missing := (implementations.filter fun s => !covered.contains s).filterMap fun s =>
      (symbols.name s).map (String.intercalate ".")
    if missing.isEmpty then none else some (.implementers missing.mergeSort)

def checkMatchExhaustiveness (info : TypeInfo) (valueTy : TypeId)
    (arms : List Arm) : Option Report :=
  match info.interner.resolve valueTy with
  | .named enumId _ =>
    match symbols.sealedImplementers enumId with
    | some implementations => checkSealedInterfaceExhaustiveness symbols implementations arms
    | none =>
      let all := enumVariantSymbolIds symbols info enumId
      if all.isEmpty then none
      else if arms.any fun arm => !arm.guarded && patternCoversAll arm.pattern then none
      else
        let covered := (arms.filter fun arm => !arm.guarded).flatMap fun arm =>
          collectPatternVariantSymbols symbols enumId arm.pattern
        let missing := all.filter fun s => !covered.contains s
        if missing.isEmpty then none
        else some (.variants (missing.map (missingName symbols enumId)).mergeSort)
  | _ => none

/-! ## Alternatives -/

namespace Pattern

open List

mutual

/-- The pattern without its or-patterns. -/
def alternatives : Pattern → List Pattern
  | .or alts => alternativesOfAll alts
  | p => [p]

def alternativesOfAll : List Pattern → List Pattern
  | [] => []
  | p :: ps => p.alternatives ++ alternativesOfAll ps

end

mutual

lemma accepts_iff_alternatives (info : TypeInfo) (ty : TypeId) (v : Value) : (p : Pattern) →
    (p.accepts info ty v = true ↔ ∃ alt ∈ p.alternatives, alt.accepts info ty v = true)
  | .or alts => by
    exact acceptsSome_iff_alternatives info ty v alts
  | .wildcard | .bind | .literal _ | .enum _ _ _ _ | .typeTuple _ _ | .struct _ _ _ _
  | .tuple _ | .range _ _ _ => by simp [alternatives]

lemma acceptsSome_iff_alternatives (info : TypeInfo) (ty : TypeId) (v : Value) :
    (ps : List Pattern) → (acceptsSome info ps ty v = true ↔
      ∃ alt ∈ alternativesOfAll ps, alt.accepts info ty v = true)
  | [] => by simp [acceptsSome, alternativesOfAll]
  | p :: ps => by
    simp [acceptsSome, alternativesOfAll, Bool.or_eq_true, mem_append, or_and_right, exists_or,
      accepts_iff_alternatives info ty v p, acceptsSome_iff_alternatives info ty v ps]

end

end Pattern

mutual

lemma mem_collect_iff (symbols : Symbols) (enumId s : SymbolId) : (p : Pattern) →
    (s ∈ collectPatternVariantSymbols symbols enumId p ↔
      ∃ alt ∈ p.alternatives, s ∈ collectPatternVariantSymbols symbols enumId alt)
  | .or alts => by
    exact mem_collectAlternatives_iff symbols enumId s alts
  | .wildcard | .bind | .literal _ | .enum _ _ _ _ | .typeTuple _ _ | .struct _ _ _ _
  | .tuple _ | .range _ _ _ => by simp [alternatives]

lemma mem_collectAlternatives_iff (symbols : Symbols) (enumId s : SymbolId) :
    (ps : List Pattern) → (s ∈ collectAlternatives symbols enumId ps ↔
      ∃ alt ∈ alternativesOfAll ps, s ∈ collectPatternVariantSymbols symbols enumId alt)
  | [] => by simp [collectAlternatives, alternativesOfAll]
  | p :: ps => by
    simp [collectAlternatives, alternativesOfAll, mem_append, or_and_right, exists_or,
      mem_collect_iff symbols enumId s p, mem_collectAlternatives_iff symbols enumId s ps]

end

/-! ## What the tables and the type checker guarantee -/

/-- What collecting the declarations leaves in the tables. -/
structure Collected (symbols : Symbols) (info : TypeInfo) : Prop where
  /-- Every variant is registered under the associated member of its name, with its tag. -/
  member : ∀ e ∈ info.enumVariants, ∃ e' ∈ info.enumVariants, e'.owner = e.owner ∧
    e'.tag = e.tag ∧ symbols.isAssociatedFunc e'.symbol = true
  /-- A member of an enum is found under the last segment of its name only. -/
  named : ∀ e ∈ info.enumVariants, ∀ short,
    symbols.associatedMember e.owner short = some e.symbol → e.path.getLast? = some short
  /-- Within an enum the names of variants are distinct. -/
  distinct : ∀ e ∈ info.enumVariants, ∀ e' ∈ info.enumVariants, e.owner = e'.owner →
    e.path.getLast? = e'.path.getLast? → e.tag = e'.tag
  /-- An enum is no sealed interface. -/
  unsealed : ∀ e ∈ info.enumVariants, symbols.sealedImplementers e.owner = none

variable (info : TypeInfo) (enumId : SymbolId)

/-- The variant of the enum that a pattern of this name and symbol is resolved to; the type
checker reports T018 if there is none. -/
def ResolvesTo (variant : List String) (symbol : Option SymbolId) (e : VariantInfo) : Prop :=
  (symbol.bind info.variantBySymbol).orElse (fun _ => info.variantByName enumId variant) = some e ∧
    e.owner = enumId ∧ e.path.getLast? = variant.getLast?

/-- The alternative is one the type checker accepts on a scrutinee of the enum. A struct
pattern is one of a variant and has become an `enum` pattern. -/
def Pattern.TypedFor : Pattern → Prop
  | .enum owner variant symbol _ => owner = enumId ∧ ∃ e, ResolvesTo info enumId variant symbol e
  | .typeTuple name _ => ∃ e, ResolvesTo info enumId name none e
  | .struct _ _ _ _ => False
  | _ => True

def ArmsTypedFor (arms : List Arm) : Prop :=
  ∀ arm ∈ arms, ∀ alt ∈ arm.pattern.alternatives, alt.TypedFor info enumId

/-- The alternative is a catch-all or names the variant of the value. -/
def Pattern.Names (ty : TypeId) (v : Value) : Pattern → Prop
  | .wildcard | .bind => True
  | .enum owner variant symbol _ =>
    ∃ tag types, info.enumVariant owner variant symbol (info.peel ty) = some (tag, types) ∧
      v.discriminant = some tag
  | .typeTuple name _ =>
    ∃ tag types, info.tupleVariant name (info.peel ty) = some (tag, types) ∧
      v.discriminant = some tag
  | _ => False

def IsEnumValue (v : Value) : Prop :=
  ∃ e ∈ info.enumVariants, e.owner = enumId ∧ v.discriminant = some e.tag

/-- If the arms without a guard name the variant of the value, one that does accepts it: the
patterns for the payload leave nothing of this variant out. -/
def PayloadCovered (ty : TypeId) (arms : List Arm) (v : Value) : Prop :=
  (∃ arm ∈ arms, arm.guarded = false ∧ ∃ alt ∈ arm.pattern.alternatives, alt.Names info ty v) →
    ∃ arm ∈ arms, arm.guarded = false ∧ ∃ alt ∈ arm.pattern.alternatives,
      alt.Names info ty v ∧ alt.accepts info ty v = true

/-! ## Soundness -/

section Sound

variable {symbols : Symbols} {info : TypeInfo} {ty : TypeId} {enumId : SymbolId}
  {args : DenseRange} {arms : List Arm} {v : Value} {e : VariantInfo} {symbol : Option SymbolId}
  {variant : List String} {guards : Nat → Bool}

lemma ResolvesTo.mem (h : ResolvesTo info enumId variant symbol e) : e ∈ info.enumVariants := by
  obtain ⟨hfind, -, -⟩ := h
  cases hsym : symbol.bind info.variantBySymbol with
  | some e' =>
    rw [hsym] at hfind
    cases hfind
    obtain ⟨s, -, hs⟩ := Option.bind_eq_some_iff.1 hsym
    exact mem_of_find?_eq_some hs
  | none =>
    rw [hsym] at hfind
    exact mem_of_find?_eq_some hfind

lemma ResolvesTo.enumVariant (h : ResolvesTo info enumId variant symbol e) (ty : ArType) :
    ∃ types, info.enumVariant enumId variant symbol ty = some (e.tag, types) := by
  obtain ⟨hfind, -, -⟩ := h
  unfold TypeInfo.enumVariant TypeInfo.namedVariant
  cases hsym : symbol.bind info.variantBySymbol with
  | some e' =>
    rw [hsym] at hfind
    cases hfind
    exact ⟨_, rfl⟩
  | none =>
    rw [hsym] at hfind
    have hname : info.variantByName enumId variant = some e := hfind
    simp only [hname]
    exact ⟨_, rfl⟩

/-- An alternative that covers the member of a variant names the values of the variant. -/
lemma names_of_mem_collect (hcollected : Collected symbols info)
    (hty : info.interner.resolve ty = .named enumId args)
    (he : e ∈ info.enumVariants) (howner : e.owner = enumId) (hv : v.discriminant = some e.tag)
    {alt : Pattern} (hor : ∀ alts, alt ≠ .or alts) (htyped : alt.TypedFor info enumId)
    (hmem : e.symbol ∈ collectPatternVariantSymbols symbols enumId alt) : alt.Names info ty v := by
  -- the variant `e'` the pattern is resolved to has the name, so the tag, of `e`
  have htag {variant : List String} {symbol : Option SymbolId} {e' : VariantInfo}
      (hmem : e.symbol ∈ memberOf symbols enumId variant)
      (hres : ResolvesTo info enumId variant symbol e') : e'.tag = e.tag := by
    obtain ⟨short, hlast, hmember⟩ := Option.bind_eq_some_iff.1 (Option.mem_toList.1 hmem)
    have hname := hcollected.named e he short (howner ▸ hmember)
    refine hcollected.distinct e' hres.mem e he (hres.2.1.trans howner.symm) ?_
    rw [hres.2.2, hlast, hname]
  cases alt with
  | enum owner variant symbol payload =>
    obtain ⟨rfl, e', hres⟩ := htyped
    obtain ⟨types, htypes⟩ := hres.enumVariant (info.peel ty)
    exact ⟨e'.tag, types, htypes, by rw [hv, htag hmem hres]⟩
  | typeTuple name payload =>
    obtain ⟨e', hres⟩ := htyped
    obtain ⟨types, htypes⟩ := hres.enumVariant (info.peel ty)
    refine ⟨e'.tag, types, ?_, by rw [hv, htag hmem hres]⟩
    rw [peel_named hty] at htypes ⊢
    exact htypes
  | struct => exact htyped.elim
  | or alts => exact absurd rfl (hor alts)
  | wildcard | bind | literal | tuple | range => cases hmem

mutual

lemma ne_or_of_mem_alternatives : (p : Pattern) → ∀ alt ∈ p.alternatives, ∀ alts, alt ≠ .or alts
  | .or alts => ne_or_of_mem_alternativesOfAll alts
  | .wildcard | .bind | .literal _ | .enum _ _ _ _ | .typeTuple _ _ | .struct _ _ _ _
  | .tuple _ | .range _ _ _ => by simp [alternatives]

lemma ne_or_of_mem_alternativesOfAll : (ps : List Pattern) →
    ∀ alt ∈ alternativesOfAll ps, ∀ alts, alt ≠ .or alts
  | [] => by simp [alternativesOfAll]
  | p :: ps => by
    intro alt halt
    rw [alternativesOfAll, mem_append] at halt
    exact halt.elim (ne_or_of_mem_alternatives p alt) (ne_or_of_mem_alternativesOfAll ps alt)

end

/-- If nothing is reported, every variant is named by an arm without a guard. -/
lemma names_of_reported_nothing (hcollected : Collected symbols info)
    (hty : info.interner.resolve ty = .named enumId args) (htyped : ArmsTypedFor info enumId arms)
    (hcheck : checkMatchExhaustiveness symbols info ty arms = none)
    (hv : IsEnumValue info enumId v) :
    ∃ arm ∈ arms, arm.guarded = false ∧ ∃ alt ∈ arm.pattern.alternatives, alt.Names info ty v := by
  obtain ⟨e₀, he₀, rfl, hdisc⟩ := hv
  obtain ⟨e, he, howner, htag, hassoc⟩ := hcollected.member e₀ he₀
  have hall : e.symbol ∈ enumVariantSymbolIds symbols info e₀.owner :=
    mem_map.2 ⟨e, mem_filter.2 ⟨he, by simp [howner, hassoc]⟩, rfl⟩
  simp only [checkMatchExhaustiveness, hty, hcollected.unsealed e₀ he₀] at hcheck
  split at hcheck
  next hempty =>
    rw [List.isEmpty_iff.1 hempty] at hall
    cases hall
  · split at hcheck
    next hcatch =>
      obtain ⟨arm, harm, hcovers⟩ := any_eq_true.1 hcatch
      obtain ⟨hg, hp⟩ := Bool.and_eq_true_iff.1 hcovers
      refine ⟨arm, harm, by simpa using hg, arm.pattern, ?_⟩
      cases hpat : arm.pattern with
      | wildcard | bind => exact ⟨mem_singleton.2 rfl, trivial⟩
      | _ => simp [hpat, patternCoversAll] at hp
    · split at hcheck
      next hmissing =>
        rw [List.isEmpty_iff, List.filter_eq_nil_iff] at hmissing
        have hcovered := hmissing _ hall
        rw [Bool.not_eq_true', Bool.not_eq_false, contains_iff_mem, mem_flatMap] at hcovered
        obtain ⟨arm, hfilter, hmem⟩ := hcovered
        obtain ⟨harm, hg⟩ := mem_filter.1 hfilter
        obtain ⟨alt, halt, hmem⟩ := (mem_collect_iff symbols e₀.owner e.symbol arm.pattern).1 hmem
        refine ⟨arm, harm, by simpa using hg, alt, halt, ?_⟩
        exact names_of_mem_collect hcollected hty he howner (htag ▸ hdisc)
          (ne_or_of_mem_alternatives _ alt halt) (htyped arm harm alt halt) hmem
      · cases hcheck

lemma SwitchPlan.Splits.chosen_ne_none {plan : SwitchPlan} {isCase : Pattern → Bool}
    (hplan : plan.Splits info ty arms isCase)
    (hguards : ∀ i, armAccepts info ty arms v guards i = (armAt arms i).pattern.accepts info ty v)
    {i : Nat} (hi : i < arms.length) (hacc : (armAt arms i).pattern.accepts info ty v = true) :
    plan.chosen info ty arms v guards ≠ none := by
  rw [hplan.chosen_eq]
  cases hcase : (plan.cases.map Prod.snd).find? fun i =>
      (armAt arms i).pattern.accepts info ty v with
  | some m => simp
  | none =>
    -- the accepting arm is left over
    obtain ⟨rest, hrest, -, hmem⟩ := hplan.rest
    have hirest : i ∈ rest := by
      refine (hmem i).2 ⟨hi, ?_⟩
      cases hc : isCase (armAt arms i).pattern with
      | false => rfl
      | true =>
        have := find?_eq_none.1 hcase i ((hplan.mem i).2 ⟨hi, hc⟩)
        exact absurd hacc this
    rw [hrest]
    match rest, hirest with
    | [_], _ => simp [otherwiseOf]
    | j :: k :: rest, hirest =>
      intro hnone
      have := find?_eq_none.1 hnone i hirest
      rw [hguards] at this
      exact this hacc

/-- Where an arm matches, the blocks of a match do not end in `Unreachable`. -/
lemma not_unreachable_of_accepts {B : Builder} (h : lowerMatch info ty arms = .ok B)
    (htyped : ArmsTyped (info.interner.resolve ty) arms) {arm : Arm} (harm : arm ∈ arms)
    (hg : arm.guarded = false) (hacc : arm.pattern.accepts info ty v = true) :
    ¬ ∃ ran, Runs info B v guards 0 ran .unreachable := by
  rintro ⟨ran, hran⟩
  obtain ⟨i, hi, rfl⟩ := exists_armAt harm
  obtain ⟨plan, hplan, hruns⟩ := lowerMatch_runs h
  have hend := (Runs.unique (hruns v guards) hran).2
  have hne : chosenBy plan info ty arms v guards ≠ none := by
    cases plan with
    | none =>
      intro hnone
      have := find?_eq_none.1 hnone i (mem_range.2 hi)
      simp [armAccepts, hacc, hg] at this
    | some plan =>
      have hsw := (buildMatchSwitchPlan_isSome_iff hplan).1 rfl
      exact (buildMatchSwitchPlan_splits htyped hplan).chosen_ne_none
        (armAccepts_of_unguarded hsw.unguarded) hi hacc
  cases hc : chosenBy plan info ty arms v guards with
  | none => exact hne hc
  | some i => simp [hc, endOf] at hend

lemma armsTyped_of_armsTypedFor (hty : info.interner.resolve ty = .named enumId args)
    (htyped : ArmsTypedFor info enumId arms) : ArmsTyped (info.interner.resolve ty) arms := by
  intro arm harm owner variant symbol payload sym args' hp hnamed
  have := htyped arm harm arm.pattern (by rw [hp]; exact mem_singleton.2 rfl)
  rw [hp] at this
  rw [hty] at hnamed
  cases hnamed
  exact this.1

/-- If nothing is reported for a match on a nominal enum, the arms without a guard name every
variant. A value of the enum that the payload patterns of its variant do not leave out is
matched by one of them, and the match does not end in `Unreachable` on it. -/
theorem reported_nothing_covers (hcollected : Collected symbols info)
    (hty : info.interner.resolve ty = .named enumId args) (htyped : ArmsTypedFor info enumId arms)
    (hcheck : checkMatchExhaustiveness symbols info ty arms = none)
    (hv : IsEnumValue info enumId v) : (∃ arm ∈ arms, arm.guarded = false ∧
      ∃ alt ∈ arm.pattern.alternatives, alt.Names info ty v) ∧ (PayloadCovered info ty arms v →
      (∃ arm ∈ arms, arm.guarded = false ∧ arm.pattern.accepts info ty v = true) ∧
      ∀ B, lowerMatch info ty arms = .ok B → ∀ guards,
        ¬ ∃ ran, Runs info B v guards 0 ran .unreachable) := by
  have hnames := names_of_reported_nothing hcollected hty htyped hcheck hv
  refine ⟨hnames, fun hpayload => ?_⟩
  obtain ⟨arm, harm, hg, alt, halt, -, hacc⟩ := hpayload hnames
  have haccepts := (accepts_iff_alternatives info ty v arm.pattern).2 ⟨alt, halt, hacc⟩
  refine ⟨⟨arm, harm, hg, haccepts⟩, fun B hB guards => ?_⟩
  exact not_unreachable_of_accepts hB (armsTyped_of_armsTypedFor hty htyped) harm hg haccepts

end Sound

/-! ## A value that slips through -/

/-- The tables of `enum State { Idle, Loaded(str) }`. -/
def stateInfo : TypeInfo where
  interner := ⟨[.named 1 .empty, .primitive .int, .primitive .str]⟩
  typeArgs := fun _ => []
  enumVariants := [⟨2, 1, ["State", "Idle"], 0, none⟩, ⟨3, 1, ["State", "Loaded"], 1, some [2]⟩]
  instantiate := fun _ _ types => types
  structFields := fun _ => []
  builtinVariants := fun _ => []
  floatEqual := fun _ _ => false

def stateSymbols : Symbols where
  associatedMember := fun owner member =>
    if owner = 1 then [("Idle", 2), ("Loaded", 3)].lookup member else none
  isAssociatedFunc := fun s => s == 2 || s == 3
  name := fun s => [(1, ["State"]), (2, ["State", "Idle"]), (3, ["State", "Loaded"])].lookup s
  sealedImplementers := fun _ => none
  lookupType := fun _ => none

/-- `match s { State.Loaded("a") => …, State.Idle => … }` -/
def loadedA : List Arm :=
  [⟨.enum 1 ["Loaded"] none [.literal (.str ['a'])], false⟩, ⟨.enum 1 ["Idle"] none [], false⟩]

/-- Nothing is reported, yet `Loaded("b")` is matched by no arm and ends in `Unreachable`; a
match on an integer is not looked at. -/
theorem reported_nothing_uncovered :
    (checkMatchExhaustiveness stateSymbols stateInfo 0 loadedA = none ∧
      IsEnumValue stateInfo 1 (.variant 1 [.str ['b']]) ∧
      (∀ arm ∈ loadedA, arm.pattern.accepts stateInfo 0 (.variant 1 [.str ['b']]) = false) ∧
      ∃ B, lowerMatch stateInfo 0 loadedA = .ok B ∧
        Runs stateInfo B (.variant 1 [.str ['b']]) (fun _ => true) 0 [] .unreachable) ∧
    checkMatchExhaustiveness stateSymbols stateInfo 1 [⟨five, false⟩] = none ∧
      five.accepts stateInfo 1 (.int 9) = false := by
  refine ⟨⟨by decide, ⟨_, mem_cons_of_mem _ (mem_singleton.2 rfl), rfl, rfl⟩, ?_, ?_⟩,
    rfl, by decide⟩
  · intro arm harm
    simp only [loadedA, mem_cons, not_mem_nil, or_false] at harm
    rcases harm with rfl | rfl <;> decide
  · obtain ⟨B, hB⟩ : ∃ B, lowerMatch stateInfo 0 loadedA = .ok B := ⟨_, rfl⟩
    obtain ⟨plan, hplan, hruns⟩ := lowerMatch_runs hB
    cases hplan
    exact ⟨B, hB, hruns (.variant 1 [.str ['b']]) fun _ => true⟩

lemma stateSymbols_collected : Collected stateSymbols stateInfo where
  member := by
    simp only [stateInfo, mem_cons, not_mem_nil, or_false]
    rintro e (rfl | rfl)
    · exact ⟨_, .inl rfl, rfl, rfl, rfl⟩
    · exact ⟨_, .inr rfl, rfl, rfl, rfl⟩
  named := by
    intro e he short hmember
    simp only [stateInfo, mem_cons, not_mem_nil, or_false] at he
    by_cases hidle : short = "Idle"
    · subst hidle
      rcases he with rfl | rfl
      · rfl
      · cases hmember
    · by_cases hloaded : short = "Loaded"
      · subst hloaded
        rcases he with rfl | rfl
        · cases hmember
        · rfl
      · rcases he with rfl | rfl <;> simp [stateSymbols, lookup_cons, beq_eq_false_iff_ne.2 hidle,
            beq_eq_false_iff_ne.2 hloaded] at hmember
  distinct := by
    simp only [stateInfo, mem_cons, not_mem_nil, or_false]
    rintro e (rfl | rfl) e' (rfl | rfl) <;> decide
  unsealed := fun _ _ => rfl

/-- With `Loaded(_)` in the place of `Loaded("a")` the value is matched. -/
theorem reported_nothing_covers_loaded :
    PayloadCovered stateInfo 0 [⟨.enum 1 ["Loaded"] none [.wildcard], false⟩,
        ⟨.enum 1 ["Idle"] none [], false⟩] (.variant 1 [.str ['b']]) ∧
      ∃ arm ∈ ([⟨.enum 1 ["Loaded"] none [.wildcard], false⟩,
        ⟨.enum 1 ["Idle"] none [], false⟩] : List Arm), arm.guarded = false ∧
        arm.pattern.accepts stateInfo 0 (.variant 1 [.str ['b']]) = true := by
  have hpayload : PayloadCovered stateInfo 0 [⟨.enum 1 ["Loaded"] none [.wildcard], false⟩,
      ⟨.enum 1 ["Idle"] none [], false⟩] (.variant 1 [.str ['b']]) := fun _ =>
    ⟨_, mem_cons_self, rfl, _, mem_singleton.2 rfl, ⟨1, [2], rfl, rfl⟩, by decide⟩
  refine ⟨hpayload, ((reported_nothing_covers stateSymbols_collected rfl ?_ (by decide)
    ⟨_, mem_cons_of_mem _ (mem_singleton.2 rfl), rfl, rfl⟩).2 hpayload).1⟩
  intro arm harm alt halt
  simp only [mem_cons, not_mem_nil, or_false] at harm
  rcases harm with rfl | rfl <;> obtain rfl := mem_singleton.1 halt
  · exact ⟨rfl, _, rfl, rfl, rfl⟩
  · exact ⟨rfl, _, rfl, rfl, rfl⟩

end Arandu.Match
