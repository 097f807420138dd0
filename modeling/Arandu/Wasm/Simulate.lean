import Arandu.Wasm.Order
import Arandu.Wasm.Run

/-!
# The operations simulate the graph

At the content of a block the labels of the machine mirror the scope stack with which the block was
emitted. A label of a landing leads to the content of its target, because the scope has to be
closed exactly there; a label of a loop leads back to the content of its header.
-/

namespace Arandu.Wasm

open Arandu.Library Arandu.Amir List

/-! ## Scope stacks -/

structure Plan.Sound (p : Plan) (f : AmirFunc) : Prop where
  nodup : p.rpo.Nodup
  head : ∃ rest, p.rpo = 0 :: rest
  covers : ∀ m n, f.Edge m n → n ∈ f.successors m ∧ p.epilogue ≠ some n
  starts : ∀ ts ∈ p.starts, ∃ r, rank p.rpo ts.1 = some r ∧ ts.2 < r
  epilogue : ∀ e, p.epilogue = some e → rank p.rpo e = none

variable {stack : List StackFrame} {labels : List Label} {i : Nat} {b : BlockId}
  {frame : StackFrame} {O : List Op} {rest : List BlockId} {S₂ S₁ : List StackFrame}

namespace Plan

variable {p : Plan} {f : AmirFunc} {ops : List Op} {t : BlockId} {r : Nat}

/-- Before the block with a rank, landings that are open end there or later, and loops that are
open have begun. -/
def FrameOk (p : Plan) (i : Nat) (frame : StackFrame) : Prop :=
  ∃ r, rank p.rpo frame.label = some r ∧
    match frame.kind with
    | .block => i ≤ r
    | .loop _ => r < i

/-- The scope of the epilogue. -/
def base (p : Plan) : List StackFrame := (p.epilogue.map landing).toList

/-- The scope stack before the block with a rank. -/
def StackOk (p : Plan) (i : Nat) (stack : List StackFrame) : Prop :=
  ∃ s, stack = s ++ p.base ∧ ∀ frame ∈ s, p.FrameOk i frame

lemma mem_targetsAt : t ∈ p.targetsAt i ↔ (t, i) ∈ p.starts := by
  unfold targetsAt
  rw [mem_insertionSort, mem_map]
  constructor
  · rintro ⟨⟨t', i'⟩, hmem, rfl⟩
    obtain ⟨hstart, hi⟩ := mem_filter.1 hmem
    obtain rfl : i' = i := of_decide_eq_true hi
    exact hstart
  · intro hmem
    exact ⟨(t, i), mem_filter.2 ⟨hmem, decide_eq_true rfl⟩, rfl⟩

lemma mem_base : frame ∈ p.base ↔ ∃ e, p.epilogue = some e ∧ landing e = frame := by
  rw [base, Option.mem_toList, Option.map_eq_some_iff]

/-- The scope of the epilogue is not the landing of a block. -/
lemma Sound.not_mem_base (hp : p.Sound f)
    (hr : rank p.rpo frame.label = some r) : frame ∉ p.base := by
  intro hmem
  obtain ⟨e, he, rfl⟩ := mem_base.1 hmem
  have := hp.epilogue e he
  rw [show rank p.rpo e = some r from hr] at this
  cases this

lemma Sound.below (hp : p.Sound f) (hr : rank p.rpo frame.label = some r)
    (h : p.StackOk i (S₁ ++ frame :: S₂)) : p.StackOk i S₂ := by
  obtain ⟨s, heq, hs⟩ := h
  rcases append_eq_append_iff.1 heq with ⟨D, rfl, hD⟩ | ⟨D, rfl, hD⟩
  · cases D with
    | nil =>
      rw [nil_append] at hD
      exact absurd (hD ▸ mem_cons_self) (hp.not_mem_base hr)
    | cons d D =>
      obtain ⟨rfl, rfl⟩ := cons.inj hD
      exact ⟨D, rfl, fun fr hfr => hs fr (by simp [hfr])⟩
  · have hmem : frame ∈ p.base := by
      rw [hD]
      simp
    exact absurd hmem (hp.not_mem_base hr)

/-! ## Closing scopes -/

section Close

variable {i : Nat} {b : BlockId}

lemma closeDead_split (p : Plan) (i : Nat) (b : BlockId) (stack : List StackFrame) :
    ∃ popped, stack = popped ++ (p.closeDead i b stack).2 ∧
      (p.closeDead i b stack).1 = popped.map endOp ∧
      ∀ frame ∈ popped, p.shouldClose i b frame = true := by
  induction stack with
  | nil => exact ⟨[], rfl, rfl, fun _ h => absurd h not_mem_nil⟩
  | cons frame stack ih =>
    rw [closeDead]
    split
    next hclose =>
      obtain ⟨popped, hsplit, hops, hall⟩ := ih
      exact ⟨frame :: popped, congrArg _ hsplit, congrArg _ hops, forall_mem_cons.2 ⟨hclose, hall⟩⟩
    next => exact ⟨[], rfl, rfl, fun _ h => absurd h not_mem_nil⟩

/-- Closing a stack closes what lies below the frames that are closed anyway. -/
lemma closeDead_append {popped : List StackFrame} (stack : List StackFrame)
    (h : ∀ frame ∈ popped, p.shouldClose i b frame = true) : p.closeDead i b (popped ++ stack) =
      (popped.map endOp ++ (p.closeDead i b stack).1, (p.closeDead i b stack).2) := by
  induction popped with
  | nil => rfl
  | cons frame popped ih =>
    rw [cons_append, closeDead, if_pos (h frame mem_cons_self),
      ih fun fr hfr => h fr (mem_cons_of_mem _ hfr)]
    rfl

lemma shouldClose_landing (e : BlockId) : p.shouldClose i b (landing e) =
    (decide (e = b) || match rank p.rpo e with
      | some r => decide (r < i)
      | none => false) :=
  rfl

lemma Sound.epilogue_open (hp : p.Sound f) {e : BlockId} (he : p.epilogue = some e)
    (hb : b ∈ p.rpo) : p.shouldClose i b (landing e) = false := by
  have hrank := hp.epilogue e he
  have hne : e ≠ b := by
    rintro rfl
    obtain ⟨r, hr⟩ := rank_of_mem hb
    rw [hrank] at hr
    cases hr
  rw [shouldClose_landing, decide_eq_false hne, hrank]
  rfl

lemma StackOk.closed (hp : p.Sound f) (hb : b ∈ p.rpo)
    (h : p.StackOk i stack) : p.StackOk i (p.closeDead i b stack).2 := by
  obtain ⟨s, rfl, hs⟩ := h
  obtain ⟨popped, hsplit, -, hall⟩ := p.closeDead_split i b (s ++ p.base)
  have hbase (frame : StackFrame) (hfr : frame ∈ p.base) : p.shouldClose i b frame = false := by
    obtain ⟨e, he, rfl⟩ := mem_base.1 hfr
    exact hp.epilogue_open he hb
  rcases append_eq_append_iff.1 hsplit with ⟨D, rfl, hD⟩ | ⟨D, rfl, hD⟩
  · cases D with
    | nil =>
      rw [nil_append] at hD
      rw [← hD]
      exact ⟨[], rfl, fun _ h => absurd h not_mem_nil⟩
    | cons d D =>
      have hd : d ∈ p.base := hD ▸ mem_cons_self
      have := hall d (by simp)
      rw [hbase d hd] at this
      cases this
  · rw [hD]
    exact ⟨D, rfl, fun fr hfr => hs fr (mem_append_right _ hfr)⟩

end Close

/-! ## One block -/

lemma emitBlock_ok {opened : List StackFrame} (h : p.emitBlock f i b stack = .ok (ops, opened)) :
    (∀ frame ∈ (p.closeDead i b stack).2, p.crosses i frame = false) ∧
    opened = p.openFrames i b ++ (p.closeDead i b stack).2 ∧
    (∀ t ∈ f.successors b, ∃ frame ∈ opened, frame.label = t) ∧
    ops = (p.closeDead i b stack).1 ++ p.openOps i b ++ .blockContent b ::
      emitTerminator p.rpo p.epilogue i opened (f.block b).terminator := by
  unfold emitBlock at h
  dsimp only at h
  split at h
  · cases h
  next hcross =>
    split at h
    · cases h
    next hlabels =>
      obtain ⟨rfl, rfl⟩ := Prod.mk.inj (Except.ok.inj h)
      refine ⟨?_, rfl, ?_, rfl⟩
      · intro frame hframe
        cases hc : p.crosses i frame with
        | false => rfl
        | true => exact absurd (any_eq_true.2 ⟨frame, hframe, hc⟩) hcross
      · intro t ht
        by_contra hno
        refine hlabels (any_eq_true.2 ⟨t, ht, ?_⟩)
        rw [Bool.not_eq_true', any_eq_false]
        intro frame hframe hlabel
        exact hno ⟨frame, hframe, of_decide_eq_true hlabel⟩

lemma emitFrom_cons (h : p.emitFrom f i (b :: rest) stack = .ok O) :
    ∃ ops opened more, p.emitBlock f i b stack = .ok (ops, opened) ∧
      p.emitFrom f (i + 1) rest opened = .ok more ∧ O = ops ++ more := by
  rw [emitFrom] at h
  split at h
  · cases h
  next ops opened hblock =>
    split at h
    · cases h
    next more hmore => exact ⟨ops, opened, more, hblock, hmore, (Except.ok.inj h).symm⟩

lemma mem_openFrames (h : frame ∈ p.openFrames i b) :
    (∃ t, (t, i) ∈ p.starts ∧ frame = landing t) ∨ ∃ last, frame = ⟨b, .loop last⟩ := by
  unfold openFrames at h
  simp only [mem_append, mem_map, mem_reverse, mem_filter, Option.mem_toList,
    Option.map_eq_some_iff] at h
  rcases h with (⟨t, ⟨ht, -⟩, rfl⟩ | ⟨last, -, rfl⟩) | ⟨t, ⟨ht, -⟩, rfl⟩
  · exact .inl ⟨t, mem_targetsAt.1 ht, rfl⟩
  · exact .inr ⟨last, rfl⟩
  · exact .inl ⟨t, mem_targetsAt.1 ht, rfl⟩

lemma Sound.opened (hp : p.Sound f) {opened : List StackFrame}
    (hb : rank p.rpo b = some i) (hs : p.StackOk i stack)
    (h : p.emitBlock f i b stack = .ok (ops, opened)) : p.StackOk (i + 1) opened := by
  obtain ⟨hcross, rfl, -, -⟩ := emitBlock_ok h
  obtain ⟨s, hsplit, hs⟩ := hs.closed hp (mem_of_rank hb)
  refine ⟨p.openFrames i b ++ s, ?_, fun frame hframe => ?_⟩
  · rw [hsplit, append_assoc]
  rcases mem_append.1 hframe with hframe | hframe
  · rcases mem_openFrames hframe with ⟨t, ht, rfl⟩ | ⟨last, rfl⟩
    · exact hp.starts (t, i) ht
    · exact ⟨i, hb, Nat.lt_succ_self i⟩
  obtain ⟨r, hr, hkind⟩ := hs frame hframe
  refine ⟨r, hr, ?_⟩
  have hno := hcross frame (by rw [hsplit]; exact mem_append_left _ hframe)
  cases hk : frame.kind with
  | loop last =>
    rw [hk] at hkind
    exact Nat.lt_succ_of_lt hkind
  | block =>
    -- a landing that ended here would cross
    unfold crosses at hno
    rw [hk, hr] at hno
    exact not_le.1 (of_decide_eq_false hno)

/-! ## Content and labels -/

/-- The code from the content of a block on, with the scope stack there. -/
structure ContentAt (p : Plan) (f : AmirFunc) (i : Nat) (b : BlockId) (opened : List StackFrame)
    (code : List Op) : Prop where
  code_eq : ∃ rest more, p.rpo.drop i = b :: rest ∧ p.emitFrom f (i + 1) rest opened = .ok more ∧
    code = .blockContent b ::
      (emitTerminator p.rpo p.epilogue i opened (f.block b).terminator ++ more)
  stack : p.StackOk (i + 1) opened
  labels : ∀ t ∈ f.successors b, ∃ frame ∈ opened, frame.label = t

/-- The code that restarts a loop leads to the content of its header. -/
def Restarts (p : Plan) (f : AmirFunc) (h : BlockId) (below : List StackFrame) (code : List Op) :
    Prop :=
  ∃ i inner last code', code = .loopBegin h :: (map .blockBegin inner ++ code') ∧
    p.ContentAt f i h (inner.reverse.map landing ++ ⟨h, .loop last⟩ :: below) code'

def LabelOf (p : Plan) (f : AmirFunc) (frame : StackFrame) (below : List StackFrame) :
    Label → Prop
  | .block => frame.kind = .block
  | .loop code => frame.kind ≠ .block ∧ p.Restarts f frame.label below code

def Mirrors (p : Plan) (f : AmirFunc) : List StackFrame → List Label → Prop
  | [], labels => labels = []
  | frame :: stack, labels =>
    ∃ l rest, labels = l :: rest ∧ p.LabelOf f frame stack l ∧ Mirrors p f stack rest

lemma Mirrors.drop (h : p.Mirrors f (S₁ ++ S₂) labels) :
    S₁.length ≤ labels.length ∧ p.Mirrors f S₂ (labels.drop S₁.length) := by
  induction S₁ generalizing labels with
  | nil => exact ⟨Nat.zero_le _, h⟩
  | cons frame S₁ ih =>
    obtain ⟨l, rest, rfl, -, hrest⟩ := h
    obtain ⟨hlen, hdrop⟩ := ih hrest
    exact ⟨Nat.succ_le_succ hlen, hdrop⟩

lemma Mirrors.label (h : p.Mirrors f (S₁ ++ frame :: S₂) labels) :
    ∃ l, labels[S₁.length]? = some l ∧ p.LabelOf f frame S₂ l ∧
      p.Mirrors f S₂ (labels.drop (S₁.length + 1)) := by
  obtain ⟨-, l, rest, hdrop, hl, hrest⟩ := h.drop
  refine ⟨l, ?_, hl, ?_⟩
  · have := congrArg (·[0]?) hdrop
    rw [getElem?_drop] at this
    exact this
  · rw [← drop_drop, hdrop]
    exact hrest

lemma Mirrors.landings (h : p.Mirrors f stack labels) (ts : List BlockId) :
    p.Mirrors f (ts.reverse.map landing ++ stack) (replicate ts.length .block ++ labels) := by
  induction ts using reverseRecOn with
  | nil => exact h
  | append_singleton ts t ih =>
    rw [reverse_append, length_append]
    exact ⟨.block, _, rfl, rfl, ih⟩

/-! ## Steps through scopes -/

variable {d : Int} {q : List Int} {code : List Op} (popped : List StackFrame)

lemma steps_ends (h : popped.length ≤ labels.length) :
    Steps ⟨popped.map endOp ++ code, labels, d, q⟩ [] ⟨code, labels.drop popped.length, d, q⟩ := by
  induction popped generalizing labels with
  | nil => exact .refl _
  | cons frame popped ih =>
    cases labels with
    | nil => exact absurd h (Nat.not_succ_le_zero _)
    | cons l labels =>
      refine Steps.quiet ?_ (ih (Nat.le_of_succ_le_succ h))
      unfold endOp
      cases hk : frame.kind <;> simp [Machine.step, hk]

lemma steps_begins (ts : List BlockId) : Steps ⟨map .blockBegin ts ++ code, labels, d, q⟩ []
      ⟨code, replicate ts.length .block ++ labels, d, q⟩ := by
  induction ts generalizing labels with
  | nil => exact .refl _
  | cons t ts ih =>
    have hlabels : replicate (t :: ts).length Label.block ++ labels =
        replicate ts.length .block ++ .block :: labels := by
      rw [length_cons, replicate_succ', append_assoc]
      rfl
    rw [hlabels]
    exact Steps.quiet rfl ih

lemma Sound.enter (hp : p.Sound f) (hplace : p.rpo.drop i = b :: rest) (hs : p.StackOk i stack)
    (hO : p.emitFrom f i (b :: rest) stack = .ok O) (hm : p.Mirrors f stack labels) :
    ∃ opened code labels', Steps ⟨O, labels, d, q⟩ [] ⟨code, labels', d, q⟩ ∧
      p.ContentAt f i b opened code ∧ p.Mirrors f opened labels' := by
  obtain ⟨ops, opened, more, hblock, hmore, rfl⟩ := emitFrom_cons hO
  have hb : rank p.rpo b = some i := rank_of_drop hp.nodup hplace
  have hstack := hp.opened hb hs hblock
  obtain ⟨-, hopened, hlabels, hops⟩ := emitBlock_ok hblock
  obtain ⟨popped, hsplit, hends, -⟩ := p.closeDead_split i b stack
  -- dead scopes are closed
  rw [hsplit] at hm
  obtain ⟨hlen, hm⟩ := hm.drop
  have hcontent : p.ContentAt f i b opened (.blockContent b ::
      (emitTerminator p.rpo p.epilogue i opened (f.block b).terminator ++ more)) :=
    ⟨⟨rest, more, hplace, hmore, rfl⟩, hstack, hlabels⟩
  have hcode : ops ++ more = popped.map endOp ++ (p.openOps i b ++ .blockContent b ::
      (emitTerminator p.rpo p.epilogue i opened (f.block b).terminator ++ more)) := by
    rw [hops, hends]
    simp
  rw [hcode]
  generalize hC : Op.blockContent b ::
    (emitTerminator p.rpo p.epilogue i opened (f.block b).terminator ++ more) = C at hcontent
  have hclose : Steps ⟨popped.map endOp ++ (p.openOps i b ++ C), labels, d, q⟩ []
      ⟨p.openOps i b ++ C, labels.drop popped.length, d, q⟩ := steps_ends popped hlen
  -- the scopes of the block are opened
  refine ⟨opened, C, ?_⟩
  unfold openOps at hclose ⊢
  unfold openFrames at hopened
  generalize (p.targetsAt i).filter (p.leavesLoop b) = outer at hclose hopened ⊢
  generalize ((p.targetsAt i).filter fun t => !p.leavesLoop b t) = inner at hclose hopened ⊢
  have hm := hm.landings outer
  cases hlast : p.lastRank b with
  | none =>
    rw [hlast] at hclose hopened
    simp only [Option.map_none, Option.toList_none, append_nil, append_assoc] at hclose hopened ⊢
    have hm := hm.landings inner
    rw [← hopened] at hm
    refine ⟨_, ?_, hcontent, hm⟩
    exact hclose.trans ((steps_begins outer).trans (steps_begins inner))
  | some last =>
    rw [hlast] at hclose hopened
    simp only [Option.map_some, Option.toList_some, append_assoc, cons_append,
      nil_append] at hclose hopened ⊢
    have hrestart : p.Restarts f b (outer.reverse.map landing ++ (p.closeDead i b stack).2)
        (.loopBegin b :: (map .blockBegin inner ++ C)) := by
      refine ⟨i, inner, last, C, rfl, ?_⟩
      rw [← hopened]
      exact hcontent
    have hloop : p.Mirrors f (⟨b, .loop last⟩ :: (outer.reverse.map landing ++
        (p.closeDead i b stack).2)) (.loop (.loopBegin b :: (map .blockBegin inner ++ C)) ::
          (replicate outer.length .block ++ labels.drop popped.length)) :=
      ⟨_, _, rfl, ⟨nofun, hrestart⟩, hm⟩
    have hm := hloop.landings inner
    rw [← hopened] at hm
    refine ⟨_, ?_, hcontent, hm⟩
    exact hclose.trans ((steps_begins outer).trans (Steps.quiet rfl (steps_begins inner)))

/-! ## Leaving scopes -/

lemma openOps_opens : ∀ op ∈ p.openOps i b, nesting op = .opens := by
  intro op hop
  unfold openOps at hop
  simp only [mem_append, mem_map, Option.mem_toList, Option.map_eq_some_iff] at hop
  rcases hop with (⟨t, -, rfl⟩ | ⟨last, -, rfl⟩) | ⟨t, -, rfl⟩ <;> rfl

lemma openOps_length : (p.openOps i b).length = (p.openFrames i b).length := by
  unfold openOps openFrames
  simp only [length_append, length_map, length_reverse, Option.length_toList, Option.isSome_map]
  omega

lemma endOp_closes : ∀ op ∈ popped.map endOp, nesting op = .closes := by
  intro op hop
  obtain ⟨frame, -, rfl⟩ := mem_map.1 hop
  unfold endOp
  cases frame.kind <;> rfl

lemma emitSwitchOps_neutral {discriminant : AmirOperand}
    {targets : List (Int × BlockId × List AmirOperand)} {otherwise : BlockId × List AmirOperand} :
    ∀ op ∈ emitSwitchOps discriminant targets otherwise stack, nesting op = .neutral := by
  unfold emitSwitchOps
  dsimp only
  split
  · exact forall_mem_singleton.2 rfl
  · exact forall_mem_append.2 ⟨forall_mem_map.2 fun _ _ => rfl, forall_mem_singleton.2 rfl⟩

lemma emitTerminator_neutral {term : AmirTerminator} :
    ∀ op ∈ emitTerminator p.rpo p.epilogue i stack term, nesting op = .neutral := by
  intro op hop
  cases term with
  | «return» =>
    cases he : p.epilogue <;>
    · rw [he] at hop
      rw [mem_singleton.1 hop]
      rfl
  | goto target args =>
    rw [emitTerminator] at hop
    split at hop <;>
    · rw [mem_singleton.1 hop]
      rfl
  | branch condition ifTrue trueArgs ifFalse falseArgs =>
    rw [emitTerminator] at hop
    split at hop
    · simp only [mem_cons, not_mem_nil, or_false] at hop
      rcases hop with rfl | rfl <;> rfl
    · split at hop <;>
      · simp only [mem_cons, not_mem_nil, or_false] at hop
        rcases hop with rfl | rfl <;> rfl
  | switchInt discriminant targets otherwise => exact emitSwitchOps_neutral op hop
  | suspend future resume args | unreachable =>
    rw [mem_singleton.1 hop]
    rfl

/-- A scope that stays open at a block is left behind it. -/
lemma pass (hopen : p.shouldClose i b frame = false)
    (hO : p.emitFrom f i (b :: rest) (S₁ ++ frame :: S₂) = .ok O) :
    ∃ S₁' ops more, p.emitBlock f i b (S₁ ++ frame :: S₂) = .ok (ops, S₁' ++ frame :: S₂) ∧
      p.emitFrom f (i + 1) rest (S₁' ++ frame :: S₂) = .ok more ∧
      exitScopes nesting O S₁.length = exitScopes nesting more S₁'.length := by
  obtain ⟨ops, opened, more, hblock, hmore, rfl⟩ := emitFrom_cons hO
  obtain ⟨-, hopened, -, hops⟩ := emitBlock_ok hblock
  obtain ⟨popped, hsplit, hends, hall⟩ := p.closeDead_split i b (S₁ ++ frame :: S₂)
  -- only frames above this one are closed
  obtain ⟨c, rfl, hclosed⟩ : ∃ c, S₁ = popped ++ c ∧
      (p.closeDead i b (S₁ ++ frame :: S₂)).2 = c ++ frame :: S₂ := by
    rcases append_eq_append_iff.1 hsplit with ⟨D, hD, hD'⟩ | ⟨D, hD, hD'⟩
    · cases D with
      | nil =>
        rw [append_nil] at hD
        exact ⟨[], by rw [hD, append_nil], hD'.symm⟩
      | cons d D =>
        obtain ⟨rfl, -⟩ := cons.inj hD'
        have := hall frame (by rw [hD]; simp)
        rw [hopen] at this
        cases this
    · exact ⟨D, hD, hD'⟩
  refine ⟨p.openFrames i b ++ c, ops, more, ?_, ?_, ?_⟩
  · rw [hblock, hopened, hclosed, append_assoc]
  · rw [← hmore, hopened, hclosed, append_assoc]
  · have hcode : ops ++ more = popped.map endOp ++ (p.openOps i b ++ ((.blockContent b ::
        emitTerminator p.rpo p.epilogue i opened (f.block b).terminator) ++ more)) := by
      rw [hops, hends]
      simp
    have hneutral : ∀ op ∈ Op.blockContent b ::
        emitTerminator p.rpo p.epilogue i opened (f.block b).terminator,
        nesting op = .neutral := forall_mem_cons.2 ⟨rfl, emitTerminator_neutral⟩
    have hlen : (popped ++ c).length = (popped.map endOp).length + c.length := by simp
    rw [hcode, hlen, exitScopes_closes (endOp_closes popped), exitScopes_opens openOps_opens,
      exitScopes_neutral hneutral, openOps_length, length_append]

lemma Sound.exit (hp : p.Sound f) {j : Nat} (ht : rank p.rpo t = some j) (k m : Nat)
    (hk : m + k = j) (S₁ : List StackFrame) (hs : p.StackOk m (S₁ ++ landing t :: S₂))
    (hO : p.emitFrom f m (p.rpo.drop m) (S₁ ++ landing t :: S₂) = .ok O) :
    ∃ O₂ rest, exitScopes nesting O S₁.length = some O₂ ∧ p.rpo.drop j = t :: rest ∧
      p.emitFrom f j (t :: rest) S₂ = .ok O₂ ∧ p.StackOk j S₂ := by
  have hget := (rank_eq_some hp.nodup).1 ht
  obtain ⟨hlt, hget⟩ := List.getElem?_eq_some_iff.1 hget
  induction k generalizing m S₁ O with
  | zero =>
    obtain rfl : m = j := hk
    have hplace : p.rpo.drop m = t :: p.rpo.drop (m + 1) := by
      rw [← hget, getElem_cons_drop]
    rw [hplace] at hO
    obtain ⟨ops, opened, more, hblock, hmore, rfl⟩ := emitFrom_cons hO
    obtain ⟨hcross, -, -, -⟩ := emitBlock_ok hblock
    obtain ⟨popped, hsplit, -, hall⟩ := p.closeDead_split m t (S₁ ++ landing t :: S₂)
    -- the landing must not be open any more
    have hcrosses : p.crosses m (landing t) = true := by
      simp [crosses, landing, ht]
    have hpop : ∀ frame ∈ S₁ ++ [landing t], p.shouldClose m t frame = true := by
      rcases append_eq_append_iff.1 hsplit with ⟨D, rfl, hD⟩ | ⟨D, -, hD⟩
      · cases D with
        | nil =>
          rw [nil_append] at hD
          have := hcross (landing t) (hD ▸ mem_cons_self)
          rw [hcrosses] at this
          cases this
        | cons d D =>
          obtain ⟨rfl, -⟩ := List.cons.inj hD
          intro frame hframe
          exact hall frame (by
            simp only [mem_append, mem_cons] at hframe ⊢
            tauto)
      · have := hcross (landing t) (by rw [hD]; simp)
        rw [hcrosses] at this
        cases this
    have hclose := closeDead_append S₂ hpop
    rw [append_assoc, singleton_append] at hclose
    unfold emitBlock at hblock
    rw [hclose] at hblock
    refine ⟨(p.closeDead m t S₂).1 ++ p.openOps m t ++ .blockContent t ::
      emitTerminator p.rpo p.epilogue m opened (f.block t).terminator ++ more,
      p.rpo.drop (m + 1), ?_, hplace, ?_, hp.below ht hs⟩
    · dsimp only at hblock
      split at hblock
      · cases hblock
      split at hblock
      · cases hblock
      obtain ⟨rfl, rfl⟩ := Prod.mk.inj (Except.ok.inj hblock)
      have := exitScopes_closes (endOp_closes S₁) (([landing t].map endOp) ++
        ((p.closeDead m t S₂).1 ++ (p.openOps m t ++ (.blockContent t ::
          emitTerminator p.rpo p.epilogue m (p.openFrames m t ++ (p.closeDead m t S₂).2)
            (f.block t).terminator ++ more)))) 0
      simpa using this.trans (exitScopes_end rfl _)
    · rw [emitFrom]
      unfold emitBlock
      dsimp only at hblock ⊢
      split at hblock
      · cases hblock
      next hc =>
        rw [if_neg hc]
        split at hblock
        · cases hblock
        next hl =>
          rw [if_neg hl]
          obtain ⟨-, rfl⟩ := Prod.mk.inj (Except.ok.inj hblock)
          dsimp only
          rw [hmore]
  | succ k ih =>
    have hmlt : m < p.rpo.length := by omega
    have hplace := (getElem_cons_drop hmlt).symm
    rw [hplace] at hO
    have hm : rank p.rpo p.rpo[m] = some m :=
      (rank_eq_some hp.nodup).2 (getElem?_eq_getElem hmlt)
    have hopen : p.shouldClose m p.rpo[m] (landing t) = false := by
      have hne : t ≠ p.rpo[m] := by
        intro heq
        rw [← heq, ht] at hm
        have := Option.some.inj hm
        omega
      rw [shouldClose_landing, decide_eq_false hne, ht]
      exact decide_eq_false (by omega)
    obtain ⟨S₁', ops, more, hblock, hmore, hexit⟩ := pass hopen hO
    rw [hexit]
    exact ih (m + 1) (by omega) S₁' (hp.opened hm hs hblock) hmore

lemma Sound.exit_epilogue (hp : p.Sound f) {e : BlockId} (he : p.epilogue = some e)
    (rest : List BlockId) (m : Nat) (hrest : p.rpo.drop m = rest) (S₁ : List StackFrame)
    (hO : p.emitFrom f m rest (S₁ ++ [landing e]) = .ok O) :
    exitScopes nesting O S₁.length = some [.return] := by
  induction rest generalizing m S₁ O with
  | nil =>
    rw [emitFrom, he] at hO
    cases hO
    have := exitScopes_closes (endOp_closes S₁) ([landing e].map endOp ++ [Op.return]) 0
    rw [length_map] at this
    rw [map_append, append_assoc]
    exact this.trans (exitScopes_end rfl _)
  | cons b rest ih =>
    have hb : b ∈ p.rpo := mem_of_mem_drop (hrest ▸ mem_cons_self)
    obtain ⟨S₁', ops, more, -, hmore, hexit⟩ := pass (hp.epilogue_open he hb) hO
    rw [hexit]
    refine ih (m + 1) ?_ S₁' hmore
    rw [← drop_drop, hrest]
    rfl

end Plan

end Arandu.Wasm
