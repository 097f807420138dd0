import Arandu.Match.Tests

/-!
# What the blocks of a match run

`lowerMatch_runs`: whatever the scrutinee and the guards are, the emitted blocks run the
body of the arm `chosen` and join, or run no body and end in `Unreachable`. `chosen` is
read off the plan; how it compares with the order of the source is the subject of
`Arandu.Match.FirstMatch`.
-/

namespace Arandu.Match

open Arandu.Amir Pattern List Builder

variable {info : TypeInfo} {ty : TypeId} {arms : List Arm} {v : Value} {guards : Nat → Bool}
  {B : Builder} {b : BlockId}

/-! ## The arm to run -/

/-- The pattern of arm `i` accepts the value and its guard, if any, holds. -/
def armAccepts (info : TypeInfo) (ty : TypeId) (arms : List Arm) (v : Value)
    (guards : Nat → Bool) (i : Nat) : Bool :=
  (armAt arms i).pattern.accepts info ty v && (!(armAt arms i).guarded || guards i)

/-- The first arm in source order that matches. -/
def firstMatch (info : TypeInfo) (ty : TypeId) (arms : List Arm) (v : Value)
    (guards : Nat → Bool) : Option Nat :=
  (List.range arms.length).find? (armAccepts info ty arms v guards)

/-- The arm a switch plan leads to. -/
def SwitchPlan.chosen (plan : SwitchPlan) (info : TypeInfo) (ty : TypeId) (arms : List Arm)
    (v : Value) (guards : Nat → Bool) : Option Nat :=
  match plan.cases.find? fun c => some c.1 == v.switchValue plan.discriminant with
  | some c => some c.2
  | none =>
    match plan.otherwise with
    | .arm i => some i
    | .chain indices => indices.find? (armAccepts info ty arms v guards)
    | .unreachable => none

/-- The arm the emitted blocks lead to. -/
def chosenBy (plan : Option SwitchPlan) (info : TypeInfo) (ty : TypeId) (arms : List Arm)
    (v : Value) (guards : Nat → Bool) : Option Nat :=
  match plan with
  | some plan => plan.chosen info ty arms v guards
  | none => firstMatch info ty arms v guards

def endOf : Option Nat → Ended
  | some _ => .joined
  | none => .unreachable

/-- The body of the chosen arm runs, and nothing else. -/
def RunsArm (info : TypeInfo) (B : Builder) (v : Value) (guards : Nat → Bool) (b : BlockId)
    (chosen : Option Nat) : Prop :=
  Runs info B v guards b chosen.toList (endOf chosen)

lemma Runs.unique {ran ran' : List Nat} {o o' : Ended}
    (h : Runs info B v guards b ran o) (h' : Runs info B v guards b ran' o') :
    ran = ran' ∧ o = o' := by
  induction h generalizing ran' o' with
  | joined =>
    cases h' with
    | joined => exact ⟨rfl, rfl⟩
    | unreachable hb | body hb | guard hb | test hb | switchInt hb => exact absurd rfl hb
  | unreachable hb hterm =>
    cases h' with
    | joined => exact absurd rfl hb
    | unreachable => exact ⟨rfl, rfl⟩
    | body _ hterm' | guard _ hterm' | test _ hterm' | switchInt _ hterm' =>
      rw [hterm] at hterm'
      cases hterm'
  | body hb hterm _ ih =>
    cases h' with
    | joined => exact absurd rfl hb
    | body _ hterm' hrest' =>
      rw [hterm] at hterm'
      cases hterm'
      obtain ⟨rfl, rfl⟩ := ih hrest'
      exact ⟨rfl, rfl⟩
    | unreachable _ hterm' | guard _ hterm' | test _ hterm' | switchInt _ hterm' =>
      rw [hterm] at hterm'
      cases hterm'
  | guard hb hterm _ ih =>
    cases h' with
    | joined => exact absurd rfl hb
    | guard _ hterm' hrest' =>
      rw [hterm] at hterm'
      cases hterm'
      exact ih hrest'
    | unreachable _ hterm' | body _ hterm' | test _ hterm' | switchInt _ hterm' =>
      rw [hterm] at hterm'
      cases hterm'
  | test hb hterm _ ih =>
    cases h' with
    | joined => exact absurd rfl hb
    | test _ hterm' hrest' =>
      rw [hterm] at hterm'
      cases hterm'
      exact ih hrest'
    | unreachable _ hterm' | body _ hterm' | guard _ hterm' | switchInt _ hterm' =>
      rw [hterm] at hterm'
      cases hterm'
  | switchInt hb hterm _ ih =>
    cases h' with
    | joined => exact absurd rfl hb
    | switchInt _ hterm' hrest' =>
      rw [hterm] at hterm'
      cases hterm'
      exact ih hrest'
    | unreachable _ hterm' | body _ hterm' | guard _ hterm' | test _ hterm' =>
      rw [hterm] at hterm'
      cases hterm'

/-! ## Reading blocks back -/

namespace Builder

variable {B : Builder}

@[simp] lemma fst_newBlock : B.newBlock.1 = B.blocks.length := rfl

@[simp] lemma length_newBlock : B.newBlock.2.blocks.length = B.blocks.length + 1 := by
  simp [newBlock]

@[simp] lemma term_newBlock (b : Nat) : B.newBlock.2.term b = B.term b := by
  simp only [term, newBlock, List.getD, getElem?_append]
  split
  · rfl
  next hb =>
    rw [getElem?_eq_none (not_lt.1 hb)]
    cases b - B.blocks.length <;> simp

@[simp] lemma length_setTerminator (b : BlockId) (t : Term) :
    (B.setTerminator b t).blocks.length = B.blocks.length := by
  simp [setTerminator]

lemma term_setTerminator {b : Nat} (hb : b < B.blocks.length) (t : Term) (x : Nat) :
    (B.setTerminator b t).term x = if x = b then t else B.term x := by
  simp only [term, setTerminator]
  by_cases hx : x = b
  · subst hx
    simp [hb]
  · simp [hx, Ne.symm hx]

end Builder

/-! ## The chain -/

lemma runs_body {b arm : Nat} (hb : b ≠ 1) (hterm : B.term b = .body arm 1) :
    RunsArm info B v guards b (some arm) :=
  .body hb hterm .joined

section Chain

variable {B B' : Builder} {current idx : Nat} {test : Test} {arm : Arm}

@[simp] lemma fst_emitArm : (emitArm arm idx test 1 current B).1 = B.blocks.length + 1 := by
  simp [emitArm]

lemma length_emitArm (arm : Arm) (idx : Nat) (test : Test) (current : Nat) (B : Builder) :
    B.blocks.length + 2 + arm.guarded.toNat =
      (emitArm arm idx test 1 current B).2.blocks.length := by
  cases hg : arm.guarded <;> simp [emitArm, hg]

lemma term_emitArm (arm : Arm) (idx : Nat) (test : Test) (hcur : current < B.blocks.length)
    (x : Nat) : (emitArm arm idx test 1 current B).2.term x =
      if x = B.blocks.length then .body idx 1
      else if arm.guarded = true ∧ x = B.blocks.length + 2 then
        .guard idx B.blocks.length (B.blocks.length + 1)
      else if x = current then
        .test test (if arm.guarded then B.blocks.length + 2 else B.blocks.length)
          (B.blocks.length + 1)
      else B.term x := by
  cases hg : arm.guarded with
  | false =>
    simp only [emitArm, hg, fst_newBlock, Bool.false_eq_true, if_false]
    rw [term_setTerminator
        (by simp only [length_newBlock, length_setTerminator]; omega),
      term_setTerminator (by simp only [length_newBlock]; omega)]
    simp
  | true =>
    simp only [emitArm, hg, if_true]
    rw [term_setTerminator (by simp; omega), term_setTerminator (by simp),
      term_setTerminator (by simp; omega)]
    simp

lemma term_close {b : Nat} (hopen : B.term b = .unreachable) (c : Bool) (x : Nat) :
    (if c then B.setTerminator b .unreachable else B).term x = B.term x := by
  cases c with
  | false => rfl
  | true =>
    by_cases hb : b < B.blocks.length
    · simp only [if_true, term_setTerminator hb]
      split
      next hx => rw [hx, hopen]
      · rfl
    · simp [setTerminator, set_eq_of_length_le (not_lt.1 hb)]

lemma length_close (c : Bool) :
    (if c then B.setTerminator b .unreachable else B).blocks.length = B.blocks.length := by
  cases c <;> simp

/-- The chain keeps the blocks that were there and runs its first matching arm. -/
lemma lowerChain_spec {indices : List Nat}
    (h : lowerChain info ty arms 1 indices current B = .ok B')
    (hcur : current < B.blocks.length) (hend : 1 < B.blocks.length)
    (hopen : B.term current = .unreachable) (hne : current ≠ 1) :
    (∀ b < B.blocks.length, b ≠ current → B'.term b = B.term b) ∧
    ∀ v guards, RunsArm info B' v guards current
      (indices.find? (armAccepts info ty arms v guards)) := by
  induction indices generalizing current B with
  | nil =>
    cases h
    exact ⟨fun _ _ _ => rfl, fun v guards => .unreachable hne hopen⟩
  | cons idx indices ih =>
    simp only [lowerChain] at h
    obtain ⟨test, htest, hrest⟩ := bind_eq_ok h
    rw [fst_emitArm] at hrest
    have hread := term_emitArm (armAt arms idx) idx test hcur
    have hlen := length_emitArm (armAt arms idx) idx test current B
    have hout : B.term (B.blocks.length + 1) = .unreachable := by
      simp [term]
    have hnext : (emitArm (armAt arms idx) idx test 1 current B).2.term (B.blocks.length + 1) =
        .unreachable := by
      rw [hread, if_neg (by omega), if_neg (by omega), if_neg (by omega), hout]
    obtain ⟨hframe, hruns⟩ := ih hrest (by rw [length_close]; omega)
      (by rw [length_close]; omega) (by rw [term_close hnext, hnext]) (by omega)
    simp only [length_close, term_close hnext] at hframe
    -- the blocks of this arm are not touched any more
    have hmatch : B'.term B.blocks.length = .body idx 1 := by
      rw [hframe _ (by omega) (by omega), hread, if_pos rfl]
    have hcurrent : B'.term current = .test test
        (if (armAt arms idx).guarded then B.blocks.length + 2 else B.blocks.length)
        (B.blocks.length + 1) := by
      rw [hframe _ (by omega) (by omega), hread, if_neg (by omega), if_neg (by omega), if_pos rfl]
    refine ⟨fun b hb hbc => ?_, fun v guards => ?_⟩
    · rw [hframe b (by omega) (by omega), hread, if_neg (by omega), if_neg (by omega), if_neg hbc]
    have hbody : RunsArm info B' v guards B.blocks.length (some idx) :=
      runs_body (by omega) hmatch
    have htests := run_lowerTestBranch _ htest v
    refine .test hne hcurrent ?_
    rw [htests]
    -- pattern, then guard, then body
    cases haccepts : (armAt arms idx).pattern.accepts info ty v with
    | false =>
      have hskip : armAccepts info ty arms v guards idx = false := by
        simp [armAccepts, haccepts]
      rw [find?_cons_of_neg (by simp [hskip])]
      exact hruns v guards
    | true =>
      cases hg : (armAt arms idx).guarded with
      | false =>
        have htake : armAccepts info ty arms v guards idx = true := by
          simp [armAccepts, haccepts, hg]
        rw [find?_cons_of_pos htake]
        exact hbody
      | true =>
        have hguard : B'.term (B.blocks.length + 2) =
            .guard idx B.blocks.length (B.blocks.length + 1) := by
          rw [hg] at hlen
          rw [hframe _ (by simp at hlen; omega) (by omega), hread, if_neg (by omega),
            if_pos ⟨hg, rfl⟩]
        refine .guard (by simp) hguard ?_
        cases hout : guards idx with
        | false =>
          have hskip : armAccepts info ty arms v guards idx = false := by
            simp [armAccepts, hg, hout]
          rw [find?_cons_of_neg (by simp [hskip])]
          exact hruns v guards
        | true =>
          have htake : armAccepts info ty arms v guards idx = true := by
            simp [armAccepts, haccepts, hout]
          rw [find?_cons_of_pos htake]
          exact hbody

end Chain

/-! ## The switch -/

section Switch

variable {B : Builder} {cases : List (Int × Nat × Nat)}

lemma caseBlocks_spec (cases : List (Int × Nat)) (B : Builder) :
    (caseBlocks cases B).2.blocks.length = B.blocks.length + cases.length ∧
      (∀ b : Nat, (caseBlocks cases B).2.term b = B.term b) ∧
      (caseBlocks cases B).1.map (fun c => (c.1, c.2.1)) = cases ∧
      (caseBlocks cases B).1.map (fun c => c.2.2) = List.range' B.blocks.length cases.length := by
  induction cases generalizing B with
  | nil => exact ⟨rfl, fun _ => rfl, rfl, rfl⟩
  | cons c cases ih =>
    obtain ⟨hlen, hterm, hcases, hblocks⟩ := ih B.newBlock.2
    refine ⟨?_, ?_, ?_, ?_⟩
    · simp only [caseBlocks, hlen, length_newBlock, length_cons]
      omega
    · intro b
      simp only [caseBlocks, hterm, term_newBlock]
    · simp only [caseBlocks, map_cons, hcases]
    · simp [caseBlocks, map_cons, hblocks, fst_newBlock, length_newBlock, length_cons, range'_succ]

lemma length_caseBodies (cases : List (Int × Nat × Nat)) (B : Builder) :
    (caseBodies 1 cases B).blocks.length = B.blocks.length := by
  induction cases generalizing B with
  | nil => rfl
  | cons c cases ih => simp [caseBodies, ih]

lemma term_caseBodies_of_not_mem {x : Nat}
    (hx : x ∉ cases.map fun c => c.2.2) (hlt : ∀ c ∈ cases, c.2.2 < B.blocks.length) :
    (caseBodies 1 cases B).term x = B.term x := by
  induction cases generalizing B with
  | nil => rfl
  | cons c cases ih =>
    simp only [map_cons, mem_cons, not_or] at hx
    have hc := hlt c mem_cons_self
    rw [caseBodies, ih hx.2 fun d hd => by simpa using hlt d (mem_cons_of_mem _ hd),
      term_setTerminator hc, if_neg hx.1]

lemma term_caseBodies {c : Int × Nat × Nat}
    (hc : c ∈ cases) (hnodup : (cases.map fun c => c.2.2).Nodup)
    (hlt : ∀ c ∈ cases, c.2.2 < B.blocks.length) :
    (caseBodies 1 cases B).term c.2.2 = .body c.2.1 1 := by
  induction cases generalizing B with
  | nil => cases hc
  | cons d cases ih =>
    rw [map_cons, nodup_cons] at hnodup
    have hd := hlt d mem_cons_self
    have hlt' : ∀ c ∈ cases, c.2.2 < (B.setTerminator d.2.2 (.body d.2.1 1)).blocks.length :=
      fun c hc => by simpa using hlt c (mem_cons_of_mem _ hc)
    rcases mem_cons.1 hc with rfl | hc
    · rw [caseBodies, term_caseBodies_of_not_mem hnodup.1 hlt', term_setTerminator hd, if_pos rfl]
    · exact ih hc hnodup.2 hlt'

lemma emitMatchSwitch_runs {plan : SwitchPlan} {B' : Builder} {entry : Nat}
    (h : emitMatchSwitch info ty arms 1 plan entry B = .ok B') (hend : 1 < B.blocks.length)
    (hentry : entry < B.blocks.length) (hne : entry ≠ 1) (v : Value) (guards : Nat → Bool) :
    RunsArm info B' v guards entry (plan.chosen info ty arms v guards) := by
  obtain ⟨hlen, hterm, hcases, hblocks⟩ := caseBlocks_spec plan.cases B
  -- the pieces of the emitted code
  generalize hcs : (caseBlocks plan.cases B).1 = cs at hcases hblocks
  generalize hB₁ : (caseBlocks plan.cases B).2 = B₁ at hlen hterm
  have hrange : ∀ c ∈ cs, B.blocks.length ≤ c.2.2 ∧ c.2.2 < B₁.blocks.length := by
    intro c hc
    have hmem : c.2.2 ∈ List.range' B.blocks.length plan.cases.length := by
      rw [← hblocks]
      exact mem_map_of_mem hc
    rw [mem_range'_1] at hmem
    omega
  have hnodup : (cs.map fun c => c.2.2).Nodup := by
    rw [hblocks]
    exact nodup_range'
  have hlt : ∀ X : Builder, X.blocks.length = B₁.blocks.length + 1 →
      ∀ c ∈ cs, c.2.2 < X.blocks.length := fun X hX c hc => by
    have := (hrange c hc).2
    omega
  generalize hB₂ : caseBodies 1 cs (B₁.newBlock.2.setTerminator entry
    (.switchInt plan.discriminant (cs.map fun c => (c.1, c.2.2)) B₁.blocks.length)) = B₂
  have hlen₂ : B₂.blocks.length = B₁.blocks.length + 1 := by
    rw [← hB₂, length_caseBodies]
    simp
  have hnot : ∀ x : Nat, x < B.blocks.length ∨ x = B₁.blocks.length →
      x ∉ cs.map fun c => c.2.2 := by
    intro x hx hmem
    obtain ⟨c, hc, heq⟩ := mem_map.1 hmem
    have := hrange c hc
    omega
  have hread : ∀ x : Nat, x < B.blocks.length ∨ x = B₁.blocks.length → B₂.term x =
      if x = entry then .switchInt plan.discriminant (cs.map fun c => (c.1, c.2.2))
        B₁.blocks.length else B.term x := by
    intro x hx
    rw [← hB₂, term_caseBodies_of_not_mem (hnot x hx) (hlt _ (by simp)),
      term_setTerminator (by simp; omega), term_newBlock, hterm]
  have hcase : ∀ c ∈ cs, B₂.term c.2.2 = .body c.2.1 1 := by
    intro c hc
    rw [← hB₂]
    exact term_caseBodies hc hnodup (hlt _ (by simp))
  have hopen : B₂.term B₁.blocks.length = .unreachable := by
    rw [hread _ (.inr rfl), if_neg (by omega)]
    simp [term, getElem?_eq_none (show B.blocks.length ≤ B₁.blocks.length by omega)]
  -- the default edge only adds blocks behind these
  have hrest : (∀ b < B₂.blocks.length, b ≠ B₁.blocks.length → B'.term b = B₂.term b) ∧
      RunsArm info B' v guards B₁.blocks.length (match plan.otherwise with
        | .arm i => some i
        | .chain indices => indices.find? (armAccepts info ty arms v guards)
        | .unreachable => none) := by
    simp only [emitMatchSwitch, hcs, hB₁, fst_newBlock, hB₂] at h
    cases hplan : plan.otherwise with
    | arm idx =>
      simp only [hplan] at h
      cases h
      have hset := term_setTerminator (B := B₂) (b := B₁.blocks.length) (by omega)
      refine ⟨fun b _ hb => by rw [hset, if_neg hb], ?_⟩
      exact runs_body (by omega) (by rw [hset, if_pos rfl])
    | chain indices =>
      simp only [hplan] at h
      obtain ⟨hframe, hruns⟩ := lowerChain_spec h (by omega) (by omega) hopen (by omega)
      exact ⟨hframe, hruns v guards⟩
    | unreachable =>
      simp only [hplan] at h
      cases h
      have hset := term_setTerminator (B := B₂) (b := B₁.blocks.length) (by omega)
      refine ⟨fun b _ hb => by rw [hset, if_neg hb], ?_⟩
      have hlast : B₁.blocks.length ≠ 1 := by omega
      exact .unreachable hlast (by rw [hset, if_pos rfl])
  obtain ⟨hframe, hotherwise⟩ := hrest
  have hterm : B'.term entry = .switchInt plan.discriminant (cs.map fun c => (c.1, c.2.2))
      B₁.blocks.length := by
    rw [hframe entry (by omega) (by omega), hread entry (.inl hentry), if_pos rfl]
  refine .switchInt hne hterm ?_
  · have hfind : plan.cases.find? (fun c => some c.1 == v.switchValue plan.discriminant) =
        (cs.find? fun c => some c.1 == v.switchValue plan.discriminant).map
          fun c => (c.1, c.2.1) := by
      rw [← hcases, find?_map]
      rfl
    unfold SwitchPlan.chosen
    rw [hfind, find?_map]
    simp only [Function.comp_def]
    cases hc : cs.find? fun c => some c.1 == v.switchValue plan.discriminant with
    | none => exact hotherwise
    | some c =>
      have hmem := mem_of_find?_eq_some hc
      have hblock := hrange c hmem
      refine runs_body (by simp; omega) ?_
      have hread' := hcase c hmem
      rw [← hread']
      exact hframe c.2.2 (by omega) (by omega)

end Switch

lemma lowerMatch_runs (h : lowerMatch info ty arms = .ok B) :
    ∃ plan, buildMatchSwitchPlan info (info.interner.resolve ty) arms = .ok plan ∧
      ∀ v guards, RunsArm info B v guards 0 (chosenBy plan info ty arms v guards) := by
  obtain ⟨plan, hplan, hemit⟩ := bind_eq_ok h
  refine ⟨plan, hplan, fun v guards => ?_⟩
  cases plan with
  | some plan => exact emitMatchSwitch_runs hemit (by decide) (by decide) (by decide) v guards
  | none => exact (lowerChain_spec hemit (by decide) (by decide) rfl (by decide)).2 v guards

end Arandu.Match
