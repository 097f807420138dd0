import Arandu.Wasm.Simulate

/-!
# Stackified functions run like their graph

The terminator of a block leads to the content of the block that the graph prescribes, so by
induction on the decisions the operations show what the walk along the graph shows.
-/

namespace Arandu.Wasm

open Arandu.Library Arandu.Amir List Steps Machine AmirFunc

attribute [local simp] AmirTerminator.targets

variable {stack : List StackFrame} {ops : List Op} {scopes : List Scope}
  {targets : List (Int × BlockId × List AmirOperand)} {otherwise : BlockId × List AmirOperand}
  {discriminant : AmirOperand}

namespace Plan

variable {p : Plan} {f : AmirFunc} {d : Int} {q : List Int} {opened : List StackFrame}
  {t b : BlockId}
  {i : Nat}

/-! ## Branches -/

lemma computeDepth_split (h : ∃ frame ∈ stack, frame.label = t) :
    ∃ S₁ frame S₂, stack = S₁ ++ frame :: S₂ ∧ frame.label = t ∧
      S₁.length = computeDepth stack t := by
  obtain ⟨frame, hframe, hlabel⟩ := h
  have hlt : computeDepth stack t < stack.length :=
    findIdx_lt_length_of_exists ⟨frame, hframe, decide_eq_true hlabel⟩
  refine ⟨stack.take (computeDepth stack t), stack[computeDepth stack t],
    stack.drop (computeDepth stack t + 1), ?_, ?_, ?_⟩
  · rw [getElem_cons_drop, take_append_drop]
  · exact of_decide_eq_true (findIdx_getElem (w := hlt))
  · rw [length_take]
    omega

/-- The machine gets to the content of a block without further observations. -/
def Reaches (p : Plan) (f : AmirFunc) (t : BlockId) (d : Int) (q : List Int) (m : Machine) : Prop :=
  ∃ i opened code labels, Steps m [] ⟨code, labels, d, q⟩ ∧ p.ContentAt f i t opened code ∧
    p.Mirrors f opened labels

/-- The situation behind the content of a block. -/
structure Behind (p : Plan) (f : AmirFunc) (i : Nat) (b : BlockId) (opened : List StackFrame)
    (more : List Op) (labels : List Label) : Prop where
  place : ∃ rest, p.rpo.drop i = b :: rest ∧ p.emitFrom f (i + 1) rest opened = .ok more
  stack : p.StackOk (i + 1) opened
  targets : ∀ t ∈ f.successors b, ∃ frame ∈ opened, frame.label = t
  mirrors : p.Mirrors f opened labels

section Behind

variable {i : Nat} {b : BlockId} {opened : List StackFrame} {more : List Op} {labels : List Label}

/-- In a table of consecutive cases the entry of a value is its case. -/
lemma table_entry {sorted : List (Int × BlockId)}
    (hperm : sorted.Perm (targets.map fun t => (t.1, t.2.1)))
    (hcons : sorted.zipIdx.all (fun ti => decide (ti.1.1 = (ti.2 : Int))) = true) :
    (∀ t, targets.find? (·.1 = d) = some t → 0 ≤ d ∧ sorted[d.toNat]? = some (d, t.2.1)) ∧
    (targets.find? (·.1 = d) = none → d < 0 ∨ sorted[d.toNat]? = none) := by
  have hkey (k : Nat) (c : Int × BlockId) (hc : sorted[k]? = some c) : c.1 = (k : Int) :=
    of_decide_eq_true (all_eq_true.1 hcons (c, k) (mem_zipIdx_iff_getElem?.2 hc))
  constructor
  · intro t ht
    have hfound := find?_some ht
    obtain rfl : t.1 = d := of_decide_eq_true hfound
    have hmem : (t.1, t.2.1) ∈ sorted :=
      hperm.mem_iff.2 (mem_map.2 ⟨t, mem_of_find?_eq_some ht, rfl⟩)
    obtain ⟨k, hk⟩ := getElem?_of_mem hmem
    have hvalue : t.1 = (k : Int) := hkey k _ hk
    have hnat : t.1.toNat = k := by omega
    rw [hnat]
    exact ⟨by omega, hk⟩
  · intro hnone
    by_contra hsome
    rw [not_or, ← ne_eq, Option.ne_none_iff_exists'] at hsome
    obtain ⟨hpos, c, hc⟩ := hsome
    have hvalue := hkey _ c hc
    obtain ⟨t, ht, hteq⟩ := mem_map.1 (hperm.mem_iff.1 (mem_of_getElem? hc))
    have hno := find?_eq_none.1 hnone t ht
    rw [decide_eq_true_eq] at hno
    have : t.1 = c.1 := congrArg Prod.fst hteq
    omega

lemma Behind.rest (hb : p.Behind f i b opened more labels) :
    p.emitFrom f (i + 1) (p.rpo.drop (i + 1)) opened = .ok more := by
  obtain ⟨rest, hplace, hmore⟩ := hb.place
  rw [← drop_drop, hplace]
  exact hmore

variable {t : BlockId} {args : List AmirOperand} (hp : p.Sound f)
  (hb : p.Behind f i b opened more labels)

include hp hb

/-- A branch to a successor gets to its content. -/
lemma Sound.branch (ht : f.Edge b t) (tail : List Op) (htail : ∀ op ∈ tail, nesting op = .neutral) :
    ∃ m', branch ⟨tail ++ more, labels, d, q⟩ (computeDepth opened t) = some m' ∧
      p.Reaches f t d q m' := by
  obtain ⟨hsucc, hepi⟩ := hp.covers b t ht
  obtain ⟨S₁, frame, S₂, rfl, rfl, hlen⟩ := computeDepth_split (hb.targets t hsucc)
  obtain ⟨l, hl, hlabel, hbelow⟩ := hb.mirrors.label
  -- the frame is not that of the epilogue, so its label has a rank
  obtain ⟨r, hr, hkind⟩ : p.FrameOk (i + 1) frame := by
    obtain ⟨s, hs, hok⟩ := hb.stack
    have hmem : frame ∈ s ++ p.base := by
      rw [← hs]
      simp
    rcases mem_append.1 hmem with hmem | hmem
    · exact hok frame hmem
    obtain ⟨e, he, rfl⟩ := mem_base.1 hmem
    exact absurd he hepi
  rw [← hlen]
  unfold branch
  rw [hl]
  cases l with
  | block =>
    have hblock : frame.kind = .block := hlabel
    obtain ⟨t, kind⟩ := frame
    obtain rfl : kind = .block := hblock
    obtain ⟨O₂, rest, hexit, hplace, hO₂, hS₂⟩ :=
      hp.exit hr (r - (i + 1)) (i + 1) (by omega) S₁ hb.stack hb.rest
    obtain ⟨opened', code, labels', hsteps, hcontent, hmirrors⟩ :=
      hp.enter (d := d) (q := q) hplace hS₂ hO₂ hbelow
    rw [exitScopes_neutral htail, hexit]
    exact ⟨_, rfl, r, opened', code, labels', hsteps, hcontent, hmirrors⟩
  | loop code =>
    obtain ⟨hne, i', inner, last, code', rfl, hcontent⟩ := hlabel
    have hloop : p.Mirrors f (⟨frame.label, .loop last⟩ :: S₂)
        (.loop (.loopBegin frame.label :: (map .blockBegin inner ++ code')) ::
          labels.drop (S₁.length + 1)) :=
      ⟨_, _, rfl, ⟨nofun, i', inner, last, code', rfl, hcontent⟩, hbelow⟩
    refine ⟨_, rfl, i', _, code', _, ?_, hcontent, hloop.landings inner⟩
    exact quiet rfl (steps_begins inner)

lemma Sound.fallthrough (ht : nextRpo p.rpo i t = true) :
    p.Reaches f t d q ⟨more, labels, d, q⟩ := by
  have hget := (rank_eq_some hp.nodup).1 (of_decide_eq_true ht)
  obtain ⟨hlt, hget⟩ := List.getElem?_eq_some_iff.1 hget
  have hplace : p.rpo.drop (i + 1) = t :: p.rpo.drop (i + 1 + 1) := by
    rw [← hget, getElem_cons_drop]
  have hmore := hb.rest
  rw [hplace] at hmore
  exact ⟨i + 1, hp.enter hplace hb.stack hmore hb.mirrors⟩

/-- A branch that is taken stores the arguments of its edge. -/
lemma Sound.steps_branch (ht : f.Edge b t) (tail : List Op)
    (htail : ∀ op ∈ tail, nesting op = .neutral) {m : Machine}
    (hstep : m.step = (Machine.branch ⟨tail ++ more, labels, d, q⟩ (computeDepth opened t)).map
      fun m => (storeEvents t args, some m)) :
    ∃ m', Steps m (storeEvents t args) m' ∧ p.Reaches f t d q m' := by
  obtain ⟨m', hbranch, hreach⟩ := hp.branch (d := d) (q := q) hb ht tail htail
  rw [hbranch] at hstep
  exact ⟨m', one hstep, hreach⟩

/-! ## Switches -/

/-- The chain of comparisons takes the first case with the value. -/
lemma Sound.chain (targets : List (Int × BlockId × List AmirOperand))
    (htargets : ∀ t ∈ targets, f.Edge b t.2.1) (hotherwise : f.Edge b otherwise.1)
    (hleave : leave (.switchInt discriminant targets otherwise) d = .jump t args) :
    ∃ m', Steps ⟨(targets.map fun t =>
          Op.brIfEq (computeDepth opened t.2.1) t.2.1 t.2.2 discriminant t.1) ++
        Op.br (computeDepth opened otherwise.1) otherwise.1 otherwise.2 :: more, labels, d, q⟩
        (storeEvents t args) m' ∧ p.Reaches f t d q m' := by
  induction targets with
  | nil =>
    obtain ⟨rfl, rfl⟩ := Leave.jump.inj hleave
    exact hp.steps_branch hb hotherwise [] (fun _ h => absurd h not_mem_nil) rfl
  | cons c targets ih =>
    unfold leave at hleave
    dsimp only at hleave
    rw [find?_cons] at hleave
    cases hc : decide (c.1 = d) with
    | true =>
      rw [hc] at hleave
      obtain ⟨rfl, rfl⟩ := Leave.jump.inj hleave
      -- the remaining comparisons are skipped
      refine hp.steps_branch hb (htargets c mem_cons_self) ((targets.map fun t =>
        Op.brIfEq (computeDepth opened t.2.1) t.2.1 t.2.2 discriminant t.1) ++
        [Op.br (computeDepth opened otherwise.1) otherwise.1 otherwise.2]) ?_ ?_
      · exact forall_mem_append.2 ⟨forall_mem_map.2 fun _ _ => rfl, forall_mem_singleton.2 rfl⟩
      · rw [append_assoc]
        exact if_pos (of_decide_eq_true hc).symm
    | false =>
      rw [hc] at hleave
      obtain ⟨m', hsteps, hreach⟩ := ih (fun t ht => htargets t (mem_cons_of_mem c ht)) hleave
      refine ⟨m', quiet ?_ hsteps, hreach⟩
      exact if_neg fun h => of_decide_eq_false hc h.symm

lemma Sound.switch (htargets : ∀ t ∈ targets, f.Edge b t.2.1) (hotherwise : f.Edge b otherwise.1)
    (hleave : leave (.switchInt discriminant targets otherwise) d = .jump t args) :
    ∃ m', Steps ⟨emitSwitchOps discriminant targets otherwise opened ++ more, labels, d, q⟩
        (storeEvents t args) m' ∧ p.Reaches f t d q m' := by
  unfold emitSwitchOps
  dsimp only
  have hperm := perm_insertionSort (fun a b : Int × BlockId => a.1 ≤ b.1)
    (targets.map fun t => (t.1, t.2.1))
  split
  next htable =>
    rw [Bool.and_eq_true, Bool.and_eq_true, Bool.and_eq_true] at htable
    obtain ⟨⟨hcons, -⟩, hempty, hdefault⟩ := htable
    obtain ⟨hsome, hnone⟩ := table_entry (d := d) hperm hcons
    unfold leave at hleave
    dsimp only at hleave
    have hno : storeEvents otherwise.1 otherwise.2 = [] := if_pos (isEmpty_iff.1 hdefault)
    cases hfind : targets.find? (·.1 = d) with
    | some c =>
      rw [hfind] at hleave
      obtain ⟨rfl, rfl⟩ := Leave.jump.inj hleave
      obtain ⟨hpos, hget⟩ := hsome c hfind
      have hc := mem_of_find?_eq_some hfind
      have hargs : c.2.2 = [] := isEmpty_iff.1 (all_eq_true.1 hempty c hc)
      refine hp.steps_branch hb (htargets c hc) []         (fun _ h => absurd h not_mem_nil) ?_
      rw [hargs]
      simp only [cons_append, Machine.step, if_pos hpos, hno]
      rw [getD_eq_getElem?_getD, getElem?_map, hget]
      rfl
    | none =>
      rw [hfind] at hleave
      obtain ⟨rfl, rfl⟩ := Leave.jump.inj hleave
      refine hp.steps_branch hb hotherwise []         (fun _ h => absurd h not_mem_nil) ?_
      simp only [cons_append, Machine.step]
      rcases hnone hfind with hneg | hget
      · rw [if_neg (Int.not_le.2 hneg)]
      · rw [getD_eq_getElem?_getD, getElem?_map, hget]
        split <;> rfl
  next =>
    rw [append_assoc]
    exact hp.chain hb targets htargets hotherwise hleave

/-! ## Terminators -/

lemma Sound.return :
    ∃ fuel, Machine.run fuel ⟨emitTerminator p.rpo p.epilogue i opened .return ++ more, labels, d,
      q⟩ = some [.return] := by
  cases he : p.epilogue with
  | none => exact run_stop rfl
  | some e =>
    -- the branch leaves every scope
    obtain ⟨s, hs, hok⟩ := hb.stack
    unfold base at hs
    rw [he] at hs
    have hlanding : ∃ frame ∈ opened, frame.label = e := ⟨landing e, by rw [hs]; simp, rfl⟩
    obtain ⟨S₁, frame, S₂, hsplit, hlabel, hlen⟩ := computeDepth_split hlanding
    have hout : frame ∉ s := by
      intro hmem
      obtain ⟨r, hr, -⟩ := hok frame hmem
      rw [hlabel, hp.epilogue e he] at hr
      cases hr
    obtain rfl : S₁ = s := by
      rw [hs] at hsplit
      rcases append_eq_append_iff.1 hsplit with ⟨D, rfl, hD⟩ | ⟨D, rfl, hD⟩
      · cases D with
        | nil => rw [append_nil]
        | cons x D =>
          have := congrArg length hD
          simp at this
      · cases D with
        | nil => rw [append_nil]
        | cons x D =>
          obtain ⟨rfl, -⟩ := cons.inj hD
          exact absurd (by simp) hout
    have hrest := hb.rest
    rw [hs] at hrest
    have hm := hb.mirrors
    rw [hs] at hm
    obtain ⟨l, hl, hlabel, -⟩ := hm.label
    have hexit := hp.exit_epilogue he _ (i + 1) rfl S₁ hrest
    cases l with
    | loop code => exact absurd rfl hlabel.1
    | block =>
      have hbranch : Machine.branch ⟨more, labels, d, q⟩ (computeDepth opened e) =
          some ⟨[.return], labels.drop (S₁.length + 1), d, q⟩ := by
        rw [← hlen]
        unfold Machine.branch
        rw [hl, hexit]
        rfl
      have hstep : Machine.step ⟨Op.br (computeDepth opened e) e [] :: more, labels, d, q⟩ =
          some ([], some ⟨[.return], labels.drop (S₁.length + 1), d, q⟩) := by
        simp only [Machine.step, hbranch]
        rfl
      exact (one hstep).run (run_stop rfl)

lemma Sound.terminator :
    match leave (f.block b).terminator d with
    | .return => ∃ fuel, Machine.run fuel ⟨emitTerminator p.rpo p.epilogue i opened
        (f.block b).terminator ++ more, labels, d, q⟩ = some [.return]
    | .trap => ∃ fuel, Machine.run fuel ⟨emitTerminator p.rpo p.epilogue i opened
        (f.block b).terminator ++ more, labels, d, q⟩ = some [.trap]
    | .jump t args => ∃ m', Steps ⟨emitTerminator p.rpo p.epilogue i opened
        (f.block b).terminator ++ more, labels, d, q⟩ (storeEvents t args) m' ∧
          p.Reaches f t d q m' := by
  have hnone : ∀ op ∈ ([] : List Op), nesting op = .neutral := fun _ h => absurd h not_mem_nil
  have hedge : ∀ t ∈ (f.block b).terminator.targets, f.Edge b t := fun _ h => h
  generalize (f.block b).terminator = term at hedge ⊢
  cases term with
  | «return» => exact hp.return hb
  | unreachable => exact run_stop rfl
  | goto target args =>
    have ht := hedge target (by simp)
    show ∃ m', Steps ⟨(if nextRpo p.rpo i target then _ else _) ++ more, labels, d, q⟩ _ m' ∧ _
    split
    next hnext => exact ⟨_, one rfl, hp.fallthrough hb hnext⟩
    next => exact hp.steps_branch hb ht [] hnone rfl
  | branch condition ifTrue trueArgs ifFalse falseArgs =>
    have htrue := hedge ifTrue (by simp)
    have hfalse := hedge ifFalse (by simp)
    have hneutral (op : Op) (hop : nesting op = .neutral) : ∀ x ∈ [op], nesting x = .neutral := by
      intro x hx
      rw [mem_singleton.1 hx]
      exact hop
    unfold leave emitTerminator
    dsimp only
    by_cases hd : d = 0
    · subst hd
      rw [if_neg (fun h => h rfl)]
      dsimp only
      split
      next hnext =>
        exact ⟨_, quiet rfl (one rfl), hp.fallthrough hb hnext⟩
      next =>
        split
        next =>
          exact hp.steps_branch hb hfalse [.argStore ifTrue trueArgs] (hneutral _ rfl) rfl
        next =>
          have hsteps := @Sound.steps_branch p f 0 q i b opened more labels ifFalse falseArgs hp hb
            hfalse [] hnone
            ⟨Op.br (computeDepth opened ifFalse) ifFalse falseArgs :: more, labels, 0, q⟩ rfl
          obtain ⟨m', hsteps, hreach⟩ := hsteps
          exact ⟨m', quiet rfl hsteps, hreach⟩
    · have hne : (d != 0) = true := bne_iff_ne.2 hd
      rw [if_pos hd]
      dsimp only
      split
      next =>
        refine hp.steps_branch hb htrue [.argStore ifFalse falseArgs] (hneutral _ rfl) ?_
        simp [Machine.step, hne]
      next =>
        split
        next hnext =>
          have hstep :
            Machine.step ⟨[.brIf (computeDepth opened ifFalse) ifFalse falseArgs condition
              true, .argStore ifTrue trueArgs] ++ more, labels, d, q⟩ =
              some ([], some ⟨.argStore ifTrue trueArgs :: more, labels, d, q⟩) := by
            simp [Machine.step, hne]
          exact ⟨_, step hstep (one rfl), hp.fallthrough hb hnext⟩
        next =>
          refine hp.steps_branch hb htrue
            [.br (computeDepth opened ifFalse) ifFalse falseArgs] (hneutral _ rfl) ?_
          simp [Machine.step, hne]
  | switchInt discriminant targets otherwise =>
    have htargets : ∀ t ∈ targets, f.Edge b t.2.1 := fun t ht =>
      hedge t.2.1 (mem_append_left _ (mem_map.2 ⟨t, ht, rfl⟩))
    have hotherwise := hedge otherwise.1 (by simp)
    obtain ⟨t, args, hleave⟩ :
        ∃ t args, leave (.switchInt discriminant targets otherwise) d = .jump t args := by
      unfold leave
      dsimp only
      split <;> exact ⟨_, _, rfl⟩
    rw [hleave]
    exact hp.switch hb htargets hotherwise hleave
  | suspend future resume args =>
    exact hp.steps_branch hb (hedge resume (by simp)) [] hnone rfl

end Behind

/-! ## Runs -/

/-- From the content of a block on, the operations show what the graph prescribes. -/
lemma Sound.run (hp : p.Sound f) (q : List Int) {code : List Op} {labels : List Label}
    (hc : p.ContentAt f i b opened code) (hm : p.Mirrors f opened labels) :
    ∃ fuel, run fuel ⟨code, labels, d, q⟩ = some (cfgTrace f q b) := by
  induction q generalizing d i b opened code labels with
  | nil =>
    obtain ⟨rest, more, -, -, rfl⟩ := hc.code_eq
    exact run_stop rfl
  | cons d' q ih =>
    obtain ⟨rest, more, hplace, hmore, rfl⟩ := hc.code_eq
    have hb : p.Behind f i b opened more labels :=
      ⟨⟨rest, hplace, hmore⟩, hc.stack, hc.labels, hm⟩
    have hexec : step ⟨.blockContent b :: (emitTerminator p.rpo p.epilogue i opened
        (f.block b).terminator ++ more), labels, d, d' :: q⟩ = some ([.exec b], some
          ⟨emitTerminator p.rpo p.epilogue i opened (f.block b).terminator ++ more, labels, d',
            q⟩) := rfl
    have hterm := hp.terminator (d := d') (q := q) hb
    refine (one hexec).run ?_
    show ∃ fuel, _ = some (match leave (f.block b).terminator d' with
      | .return => [Event.return]
      | .trap => [Event.trap]
      | .jump t args => storeEvents t args ++ cfgTrace f q t)
    split at hterm
    next hleave => exact hterm
    next hleave => exact hterm
    next t args hleave =>
      obtain ⟨m', hsteps, i', opened', code', labels', hreach, hcontent, hmirrors⟩ := hterm
      exact hsteps.run (hreach.run (ih hcontent hmirrors))

/-! ## Nesting -/

def scopeOf (frame : StackFrame) : Scope :=
  match frame.kind with
  | .loop _ => .loop
  | .block => .block frame.label

lemma nests_ends (popped : List StackFrame)
    (h : Nests scopes ops) : Nests (popped.map scopeOf ++ scopes) (popped.map endOp ++ ops) := by
  induction popped with
  | nil => exact h
  | cons frame popped ih =>
    rw [map_cons, map_cons]
    unfold scopeOf endOp
    cases frame.kind <;> exact ⟨_, rfl, ih⟩

lemma nests_begins (ts : List BlockId)
    (h : Nests ((ts.reverse.map landing).map scopeOf ++ scopes) ops) :
    Nests scopes (map .blockBegin ts ++ ops) := by
  induction ts generalizing scopes with
  | nil => exact h
  | cons t ts ih =>
    refine ih ?_
    rw [reverse_cons, map_append, map_append, append_assoc] at h
    exact h

lemma nests_neutral {xs : List Op}
    (hxs : ∀ op ∈ xs, nesting op = .neutral ∧ ∀ n ∈ op.depths, n < scopes.length)
    (h : Nests scopes ops) : Nests scopes (xs ++ ops) := by
  induction xs with
  | nil => exact h
  | cons op xs ih =>
    obtain ⟨hop, hdepths⟩ := hxs op mem_cons_self
    have hrest := ih fun op hop => hxs op (mem_cons_of_mem _ hop)
    cases op with
    | loopBegin | blockBegin | loopEnd | blockEnd => cases hop
    | _ => exact ⟨hdepths, hrest⟩

lemma computeDepth_lt
    (h : ∃ frame ∈ stack, frame.label = t) : computeDepth stack t < stack.length := by
  obtain ⟨S₁, frame, S₂, rfl, -, hlen⟩ := computeDepth_split h
  rw [length_append, length_cons]
  omega

lemma Sound.depths_lt (hp : p.Sound f)
    (hs : p.StackOk (i + 1) opened) (hb : ∀ t ∈ f.successors b, ∃ frame ∈ opened, frame.label = t) :
    ∀ op ∈ emitTerminator p.rpo p.epilogue i opened (f.block b).terminator,
      ∀ n ∈ op.depths, n < opened.length := by
  have hedge : ∀ t ∈ (f.block b).terminator.targets, computeDepth opened t < opened.length :=
    fun t ht => computeDepth_lt (hb t (hp.covers b t ht).1)
  generalize (f.block b).terminator = term at hedge ⊢
  intro op hop n hn
  cases term with
  | «return» =>
    cases he : p.epilogue with
    | none =>
      rw [he] at hop
      rw [mem_singleton.1 hop] at hn
      cases hn
    | some e =>
      rw [he] at hop
      rw [mem_singleton.1 hop] at hn
      rw [mem_singleton.1 hn]
      apply computeDepth_lt
      obtain ⟨s, hs, -⟩ := hs
      refine ⟨landing e, ?_, rfl⟩
      rw [hs, base, he]
      simp
  | unreachable =>
    rw [mem_singleton.1 hop] at hn
    cases hn
  | goto target args =>
    rw [emitTerminator] at hop
    split at hop
    · rw [mem_singleton.1 hop] at hn
      cases hn
    · rw [mem_singleton.1 hop] at hn
      rw [mem_singleton.1 hn]
      exact hedge target (by simp)
  | branch condition ifTrue trueArgs ifFalse falseArgs =>
    have htrue := hedge ifTrue (by simp)
    have hfalse := hedge ifFalse (by simp)
    rw [emitTerminator] at hop
    split at hop
    · simp only [mem_cons, not_mem_nil, or_false] at hop
      rcases hop with rfl | rfl
      · rwa [mem_singleton.1 hn]
      · cases hn
    · split at hop <;> simp only [mem_cons, not_mem_nil, or_false] at hop
      · rcases hop with rfl | rfl
        · rwa [mem_singleton.1 hn]
        · cases hn
      · rcases hop with rfl | rfl <;> rwa [mem_singleton.1 hn]
  | switchInt discriminant targets otherwise =>
    have hcase (t : Int × BlockId × List AmirOperand) (ht : t ∈ targets) :=
      hedge t.2.1 (mem_append_left _ (mem_map.2 ⟨t, ht, rfl⟩))
    have hdefault := hedge otherwise.1 (by simp)
    rw [emitTerminator, emitSwitchOps] at hop
    split at hop
    · rw [mem_singleton.1 hop] at hn
      rcases mem_cons.1 hn with rfl | hn
      · exact hdefault
      · obtain ⟨c, hc, rfl⟩ := mem_map.1 hn
        rw [mem_insertionSort] at hc
        obtain ⟨t, ht, rfl⟩ := mem_map.1 hc
        exact hcase t ht
    · rcases mem_append.1 hop with hop | hop
      · obtain ⟨t, ht, rfl⟩ := mem_map.1 hop
        rw [mem_singleton.1 hn]
        exact hcase t ht
      · rw [mem_singleton.1 hop] at hn
        rwa [mem_singleton.1 hn]
  | suspend future resume args =>
    rw [mem_singleton.1 hop] at hn
    rw [mem_singleton.1 hn]
    exact hedge resume (by simp)

lemma Sound.nests (hp : p.Sound f) (rest : List BlockId) (i : Nat)
    (hplace : p.rpo.drop i = rest) (hs : p.StackOk i stack) {O : List Op}
    (hO : p.emitFrom f i rest stack = .ok O) : Nests (stack.map scopeOf) O := by
  induction rest generalizing i stack O with
  | nil =>
    cases hO
    have hend : Nests [] (p.epilogue.map fun _ => Op.return).toList := by
      cases p.epilogue with
      | none => rfl
      | some e => exact ⟨fun _ h => absurd h not_mem_nil, rfl⟩
    have := nests_ends stack hend
    rwa [append_nil] at this
  | cons b rest ih =>
    obtain ⟨ops, opened, more, hblock, hmore, rfl⟩ := emitFrom_cons hO
    have hb : rank p.rpo b = some i := rank_of_drop hp.nodup hplace
    have hopen := hp.opened hb hs hblock
    obtain ⟨-, hopened, hlabels, rfl⟩ := emitBlock_ok hblock
    obtain ⟨popped, hsplit, hends, -⟩ := p.closeDead_split i b stack
    have hnext := ih (i + 1) (by rw [← drop_drop, hplace]; rfl) hopen hmore
    -- the content and the terminator
    have hcontent : Nests (opened.map scopeOf) ((.blockContent b ::
        emitTerminator p.rpo p.epilogue i opened (f.block b).terminator) ++ more) := by
      refine nests_neutral (fun op hop => ?_) hnext
      rw [length_map]
      rcases mem_cons.1 hop with rfl | hop
      · exact ⟨rfl, fun _ h => absurd h not_mem_nil⟩
      · exact ⟨emitTerminator_neutral op hop, hp.depths_lt hopen hlabels op hop⟩
    have hbegin : Nests ((p.closeDead i b stack).2.map scopeOf) (p.openOps i b ++
        ((.blockContent b ::
          emitTerminator p.rpo p.epilogue i opened (f.block b).terminator) ++ more)) := by
      generalize (Op.blockContent b ::
        emitTerminator p.rpo p.epilogue i opened (f.block b).terminator) ++ more = C at hcontent ⊢
      rw [hopened, openFrames, map_append, map_append, map_append,
        append_assoc, append_assoc] at hcontent
      unfold openOps
      rw [append_assoc, append_assoc]
      apply nests_begins
      cases hlast : p.lastRank b with
      | none | some last =>
        rw [hlast] at hcontent
        exact nests_begins _ hcontent
    have hall := nests_ends popped hbegin
    rw [← map_append, ← hsplit] at hall
    rw [hends, append_assoc, append_assoc]
    exact hall

lemma Sound.emit (hp : p.Sound f) (h : p.emit f = .ok ops) : Nests [] ops ∧ ∀ decisions, ∃ fuel,
      (start ops decisions).run fuel = some (cfgTrace f decisions 0) := by
  have hbase : p.StackOk 0 p.base := ⟨[], rfl, fun _ h => absurd h not_mem_nil⟩
  obtain ⟨rest, hrpo⟩ := hp.head
  have hplace : p.rpo.drop 0 = 0 :: rest := hrpo
  unfold Plan.emit at h
  cases he : p.epilogue with
  | none =>
    rw [he] at h
    have hb : p.base = [] := by rw [base, he]; rfl
    rw [hb] at hbase
    refine ⟨hp.nests _ 0 rfl hbase h, fun decisions => ?_⟩
    rw [hrpo] at h
    obtain ⟨opened, code, labels, hsteps, hcontent, hmirrors⟩ :=
      hp.enter (d := 0) (q := decisions) hplace hbase h rfl
    exact hsteps.run (hp.run decisions hcontent hmirrors)
  | some e =>
    rw [he] at h
    dsimp only at h
    split at h
    · cases h
    next inner hinner =>
      cases h
      have hb : p.base = [landing e] := by rw [base, he]; rfl
      rw [hb] at hbase
      refine ⟨hp.nests _ 0 rfl hbase hinner, fun decisions => ?_⟩
      rw [hrpo] at hinner
      have hlabels : p.Mirrors f [landing e] [.block] := ⟨.block, [], rfl, rfl, rfl⟩
      obtain ⟨opened, code, labels, hsteps, hcontent, hmirrors⟩ :=
        hp.enter (d := 0) (q := decisions) hplace hbase hinner hlabels
      have hopen : Steps (start (.blockBegin e :: inner) decisions) []
          ⟨inner, [.block], 0, decisions⟩ := one rfl
      exact hopen.run (hsteps.run (hp.run decisions hcontent hmirrors))

end Plan

/-! ## The result -/

variable {f : AmirFunc}

lemma planOf_sound (hn : 0 < f.blocks.length) (hcfg : f.CfgCovers)
    (htargets : ∀ m n, f.Edge m n → n < f.blocks.length) {doms : Dominators}
    (hdoms : Dominators.new f = some doms) {rpo : List BlockId} (hl : Laid f rpo) :
    (planOf f doms rpo).Sound f where
  nodup := hl.nodup
  head := hl.head
  covers m n h := by
    refine ⟨hcfg.covers m n h, ?_⟩
    show epilogueTarget f ≠ some n
    unfold epilogueTarget
    split
    · intro heq
      exact absurd (htargets m n h) (Option.some.inj heq ▸ lt_irrefl _)
    · exact nofun
  starts _ hts := scopeStarts_lt hcfg hdoms hn hl hts
  epilogue e he := by
    have he : epilogueTarget f = some e := he
    unfold epilogueTarget at he
    split at he
    · cases he
      exact if_neg fun hmem => absurd (hl.bound _ hmem) (lt_irrefl _)
    · cases he

/-- When `stackify` returns operations, they nest properly, no branch leaves more scopes than are
open, and for every sequence of decisions they show what the graph prescribes from the entry. -/
theorem stackify_simulates (hn : 0 < f.blocks.length) (hcfg : f.CfgCovers)
    (htargets : ∀ m n, f.Edge m n → n < f.blocks.length) {fuel : Nat} {ops : List Op}
    (h : stackify fuel f = some (.ok ops)) : Nests [] ops ∧ ∀ decisions, ∃ steps,
      (start ops decisions).run steps = some (cfgTrace f decisions 0) := by
  have hlaid := laid_bodyFirst hn
  unfold stackify at h
  rw [if_neg] at h
  · split at h
    next rpo doms hrpo hdoms =>
      have hl := hlaid.hoistUnreachable hcfg hrpo
      exact (planOf_sound hn hcfg htargets hdoms hl).emit (Option.some.inj h)
    next => cases h
  · obtain ⟨rest, hrest⟩ := hlaid.head
    rw [hrest]
    exact cons_ne_nil 0 rest

lemma edge_lt_of_all
    (h : f.blocks.all (fun b => b.terminator.targets.all (· < f.blocks.length)) = true)
    (m n : BlockId) (hmn : f.Edge m n) : n < f.blocks.length := by
  have hm := lt_of_edge hmn
  rw [Edge, block_eq_getElem hm] at hmn
  have hall := all_eq_true.1 h _ (getElem_mem hm)
  exact of_decide_eq_true (all_eq_true.1 hall n hmn)

def countdown : AmirFunc :=
  let blocks : List AmirBasicBlock :=
    [⟨0, .empty, .empty, .goto 1 [.constant (.pool 0)]⟩,
      ⟨1, .empty, .empty, .branch (.copy 0) 2 [] 3 []⟩,
      ⟨2, .empty, .empty, .goto 1 [.copy 0]⟩,
      ⟨3, .empty, .empty, .branch (.copy 0) 4 [] 5 []⟩,
      ⟨4, .empty, .empty, .return⟩,
      ⟨5, .empty, .empty, .return⟩]
  { symbol := 0, returnType := 0, receiver := none, params := [], locals := [], temps := [], blocks,
    blockParams := [], stmts := [], cfg := computeCfgEdges blocks }

theorem stackify_simulates_countdown :
    ∃ ops, stackify 10 countdown = some (.ok ops) ∧ Nests [] ops ∧ ∀ decisions, ∃ steps,
      (start ops decisions).run steps = some (cfgTrace countdown decisions 0) := by
  have hok : (stackify 10 countdown).map Except.toBool = some true := by decide +kernel
  have htargets : ∀ m n, countdown.Edge m n → n < countdown.blocks.length :=
    edge_lt_of_all (by decide)
  obtain ⟨result, hops, hresult⟩ := Option.map_eq_some_iff.1 hok
  cases result with
  | error e => cases hresult
  | ok ops =>
    exact ⟨ops, hops, stackify_simulates (by decide)
      (cfgCovers_of_compute rfl htargets) htargets hops⟩

/-! ## The traversal -/

/-- Either reverse post-order lists the reachable blocks, each once, and every block but the entry
after one of its predecessors. -/
theorem rpoTraverse_laid (hn : 0 < f.blocks.length) (hcfg : f.CfgExact)
    (htargets : ∀ m n, f.Edge m n → n < f.blocks.length) (reverseSuccessors : Bool) :
    Laid f (rpoTraverse f reverseSuccessors) ∧
      ∀ b, b ∈ rpoTraverse f reverseSuccessors ↔ Reachable f.Edge 0 b := by
  have hsucc (m n : BlockId) :
      n ∈ (if reverseSuccessors then (f.successors m).reverse else f.successors m) ↔
      f.Edge m n := by
    cases reverseSuccessors <;> simp [hcfg.succs, Edge]
  rw [rpoTraverse, if_neg (Nat.ne_of_gt hn)]
  refine ⟨⟨dfsOrder_nodup hn, dfsOrder_head hn, fun pre b post heq => ?_,
    fun b hb => lt_of_mem_dfsOrder hn hb⟩, fun b => ?_⟩
  · rcases dfsOrder_parent hn heq with h0 | ⟨m, hm, hs⟩
    · exact .inl h0
    · refine .inr ⟨m, hm, ?_⟩
      rw [hcfg.succs]
      exact (hsucc m b).1 hs
  · rw [mem_dfsOrder hn]
    exact ⟨Reachable.mono fun m n h => (hsucc m n).1 h.1,
      Reachable.mono fun m n h => ⟨(hsucc m n).2 h, htargets m n h⟩⟩

theorem rpoTraverse_laid_countdown : Laid countdown (rpoTraverse countdown true) ∧
    ∀ b, b ∈ rpoTraverse countdown true ↔ Reachable countdown.Edge 0 b :=
  have htargets := edge_lt_of_all (f := countdown) (by decide)
  rpoTraverse_laid (by decide) (cfgExact_of_compute rfl htargets) htargets true

end Arandu.Wasm
