import Arandu.Match.Lower

/-!
# Pattern tests decide their patterns

`run_lowerTest` and `run_lowerTestBranch`: whenever the lowering of a pattern test
succeeds, the emitted code succeeds on a value exactly if the pattern accepts it. The
induction follows the nesting of patterns; the lists of sub-patterns carry the
conjunction or disjunction of the tests emitted before them as an accumulator.
-/

namespace Arandu.Match

open Arandu.Amir Pattern TypeInfo

variable {info : TypeInfo}

lemma bind_eq_ok {ε α β : Type} {x : Except ε α} {f : α → Except ε β} {b : β}
    (h : (x >>= f) = .ok b) : ∃ a, x = .ok a ∧ f a = .ok b := by
  cases x with
  | error e => cases h
  | ok a => exact ⟨a, rfl, h⟩

variable {payload : List Pattern} {variant : List String} {types : List TypeId} {u : Unit}

lemma length_le_of_checkPayload (h : checkPayload variant types payload = .ok u) :
    payload.length ≤ types.length := by
  unfold checkPayload at h
  split at h
  next hcheck =>
    rw [Bool.or_eq_true, List.isEmpty_iff, beq_iff_eq] at hcheck
    rcases hcheck with rfl | heq
    · exact Nat.zero_le _
    · exact le_of_eq heq.symm
  · cases h

lemma length_eq_of_checkBuiltinPayload
    (h : checkBuiltinPayload variant types payload = .ok u) : payload.length = types.length := by
  unfold checkBuiltinPayload at h
  split at h
  next hcheck => exact (beq_iff_eq.1 hcheck).symm
  · cases h

lemma enumVariant_of_lowered {owner : SymbolId} {symbol : Option SymbolId} {e : VariantInfo}
    (h : info.loweredVariant owner variant symbol = some e) (ty : ArType) :
    info.enumVariant owner variant symbol ty = some (e.tag, info.payloadTypes e owner ty) := by
  cases symbol with
  | none =>
    have hname : info.variantByName owner variant = some e := h
    simp [enumVariant, namedVariant, hname]
  | some s =>
    have hsym : info.variantBySymbol s = some e := h
    simp [enumVariant, hsym]

lemma tupleVariant_of_builtin {name : List String} {ty : ArType} {tag : Nat}
    (h : builtinVariant name ty = .ok (tag, types)) :
    info.tupleVariant name ty = some (tag, types) := by
  unfold builtinVariant at h
  split at h
  case h_4 => cases h
  all_goals
    split at h
    · cases h; rfl
    · cases h; rfl
    · cases h

lemma headD_drop (vs : List Value) (index : Nat) :
    (vs.drop index).headD .missing = vs.getD index .missing := by
  rw [List.headD_eq_head?_getD, List.head?_drop]
  rfl

/-! ## Tests without branching -/

mutual

lemma run_lowerTest : ∀ (p : Pattern) {ty : TypeId} {t : Test},
    lowerTest info p ty = .ok t → ∀ v, t.run info v = p.accepts info ty v
  | .wildcard, ty, t, h, v | .bind, ty, t, h, v | .literal _, ty, t, h, v
  | .range _ _ _, ty, t, h, v | .or [], ty, t, h, v => by
    cases h
    rfl
  | .enum owner variant symbol payload, ty, t, h, v => by
    simp only [lowerTest] at h
    split at h
    · cases h
    next e he =>
      obtain ⟨u, hcheck, htests⟩ := bind_eq_ok h
      rw [run_lowerPayloadTests payload htests (length_le_of_checkPayload hcheck)]
      simp only [accepts, enumVariant_of_lowered he]
      rfl
  | .typeTuple name payload, ty, t, h, v => by
    simp only [lowerTest] at h
    split at h
    next sym args hty =>
      split at h
      · cases h
      next e he =>
        obtain ⟨u, hcheck, htests⟩ := bind_eq_ok h
        rw [run_lowerPayloadTests payload htests (length_le_of_checkPayload hcheck)]
        simp only [accepts, hty, tupleVariant, namedVariant, he]
        rfl
    · obtain ⟨⟨tag, types⟩, hbuiltin, hrest⟩ := bind_eq_ok h
      obtain ⟨u, hcheck, htests⟩ := bind_eq_ok hrest
      have hlen := le_of_eq (length_eq_of_checkBuiltinPayload hcheck)
      rw [run_lowerPayloadTests payload htests hlen]
      simp only [accepts, tupleVariant_of_builtin hbuiltin]
      rfl
  | .struct symbol path names patterns, ty, t, h, v => by
    rw [run_lowerFieldTests patterns h]
    simp [accepts, Test.run]
  | .tuple items, ty, t, h, v => by
    have hlen : items.length ≤ (info.itemTypes ty items.length).length := by
      simp [itemTypes]
    rw [run_lowerItemTests items h hlen]
    simp [accepts, Test.run]
  | .or (p :: ps), ty, t, h, v => by
    obtain ⟨first, hfirst, hrest⟩ := bind_eq_ok h
    rw [run_lowerOrTests ps hrest, run_lowerTest p hfirst]
    simp [accepts, acceptsSome]

lemma run_lowerPayloadTests : ∀ (ps : List Pattern) {tag : Nat} {types : List TypeId}
    {index : Nat} {acc t : Test}, lowerPayloadTests info tag ps types index acc = .ok t →
    ps.length ≤ types.length → ∀ {v : Value},
    t.run info v = (acc.run info v && acceptsAll info ps types ((v.payload tag).drop index))
  | [], tag, types, index, acc, t, h, hlen, v => by
    simp only [lowerPayloadTests] at h
    cases h
    simp [acceptsAll]
  | p :: ps, tag, [], index, acc, t, h, hlen, v => by simp at hlen
  | p :: ps, tag, ty :: types, index, acc, t, h, hlen, v => by
    obtain ⟨sub, hsub, hrest⟩ := bind_eq_ok h
    rw [run_lowerPayloadTests ps hrest (by simpa using hlen)]
    simp only [Test.run, acceptsAll, headD_drop, List.tail_drop, run_lowerTest p hsub,
      Bool.and_assoc]
    rfl

lemma run_lowerFieldTests : ∀ (ps : List Pattern) {symbol : SymbolId} {names : List String}
    {acc t : Test}, lowerFieldTests info symbol names ps acc = .ok t → ∀ v,
    t.run info v = (acc.run info v && acceptsFields info symbol names ps v)
  | [], symbol, names, acc, t, h, v => by
    cases names <;>
    · simp only [lowerFieldTests] at h
      cases h
      simp [acceptsFields]
  | p :: ps, symbol, [], acc, t, h, v => by
    cases h
    simp [acceptsFields]
  | p :: ps, symbol, name :: names, acc, t, h, v => by
    obtain ⟨sub, hsub, hrest⟩ := bind_eq_ok h
    rw [run_lowerFieldTests ps hrest v]
    simp only [Test.run, acceptsFields, run_lowerTest p hsub, Bool.and_assoc]

lemma run_lowerItemTests : ∀ (ps : List Pattern) {types : List TypeId} {index : Nat}
    {acc t : Test}, lowerItemTests info ps types index acc = .ok t → ps.length ≤ types.length →
    ∀ {v : Value}, t.run info v = (acc.run info v && acceptsAll info ps types (v.items.drop index))
  | [], types, index, acc, t, h, hlen, v => by
    simp only [lowerItemTests] at h
    cases h
    simp [acceptsAll]
  | p :: ps, [], index, acc, t, h, hlen, v => by simp at hlen
  | p :: ps, ty :: types, index, acc, t, h, hlen, v => by
    obtain ⟨sub, hsub, hrest⟩ := bind_eq_ok h
    rw [run_lowerItemTests ps hrest (by simpa using hlen)]
    simp only [Test.run, acceptsAll, headD_drop, List.tail_drop, run_lowerTest p hsub,
      Bool.and_assoc]
    rfl

lemma run_lowerOrTests : ∀ (ps : List Pattern) {ty : TypeId} {acc t : Test},
    lowerOrTests info ps ty acc = .ok t → ∀ v,
    t.run info v = (acc.run info v || acceptsSome info ps ty v)
  | [], ty, acc, t, h, v => by
    simp only [lowerOrTests] at h
    cases h
    simp [acceptsSome]
  | p :: ps, ty, acc, t, h, v => by
    obtain ⟨next, hnext, hrest⟩ := bind_eq_ok h
    rw [run_lowerOrTests ps hrest v]
    simp [Test.run, acceptsSome, run_lowerTest p hnext, Bool.or_assoc]

end

/-! ## Tests with branches -/

lemma run_seq (a b : Test) (v : Value) :
    (Test.seq a b).run info v = (a.run info v && b.run info v) := by
  simp only [Test.run]
  cases a.run info v <;> rfl

lemma acceptsAll_of_tagDecides (h : tagDecides payload = true)
    (types : List TypeId) (vs : List Value) : acceptsAll info payload types vs = true := by
  unfold tagDecides at h
  split at h
  · rfl
  · rfl
  · rfl
  · cases h

mutual

lemma run_lowerTestBranch : ∀ (p : Pattern) {ty : TypeId} {t : Test},
    lowerTestBranch info p ty = .ok t → ∀ v, t.run info v = p.accepts info ty v
  | .enum owner variant symbol payload, ty, t, h, v => by
    simp only [lowerTestBranch] at h
    split at h
    next e he =>
      split at h
      next hlen =>
        simp only [accepts, enumVariant_of_lowered he]
        split at h
        next hdecides =>
          cases h
          simp [Test.run, acceptsAll_of_tagDecides hdecides]
        · obtain ⟨sub, hsub, hok⟩ := bind_eq_ok h
          cases hok
          rw [run_seq, run_lowerPayloadBranches payload hsub (le_of_eq hlen.symm)]
          rfl
      · exact run_lowerTest _ h v
    · exact run_lowerTest _ h v
  | .typeTuple name payload, ty, t, h, v => by
    simp only [lowerTestBranch] at h
    split at h
    next tag types hbuiltin =>
      split at h
      next hdecides =>
        cases h
        simp [accepts, tupleVariant_of_builtin hbuiltin, Test.run,
          acceptsAll_of_tagDecides hdecides]
      · split at h
        next hone =>
          obtain ⟨sub, hsub, hok⟩ := bind_eq_ok h
          cases hok
          rw [run_seq, run_lowerPayloadBranches payload hsub (by omega)]
          simp only [accepts, tupleVariant_of_builtin hbuiltin]
          rfl
        · exact run_lowerTest _ h v
    · exact run_lowerTest _ h v
  | .wildcard, ty, t, h, v | .bind, ty, t, h, v | .literal _, ty, t, h, v
  | .struct _ _ _ _, ty, t, h, v | .tuple _, ty, t, h, v | .range _ _ _, ty, t, h, v
  | .or _, ty, t, h, v => run_lowerTest _ (by simpa only [lowerTestBranch] using h) v

lemma run_lowerPayloadBranches : ∀ (ps : List Pattern) {tag : Nat} {types : List TypeId}
    {index : Nat} {t : Test}, lowerPayloadBranches info tag ps types index = .ok t →
    ps.length ≤ types.length → ∀ {v : Value},
    t.run info v = acceptsAll info ps types ((v.payload tag).drop index)
  | [], tag, types, index, t, h, hlen, v => by
    simp only [lowerPayloadBranches] at h
    cases h
    simp [acceptsAll, Test.run]
  | p :: ps, tag, [], index, t, h, hlen, v => by simp at hlen
  | p :: ps, tag, ty :: types, index, t, h, hlen, v => by
    obtain ⟨sub, hsub, hrest⟩ := bind_eq_ok h
    simp only [acceptsAll]
    split at hrest
    · cases hrest
      simp [Test.run, acceptsAll, Value.payloadItem, run_lowerTestBranch p hsub]
    next q qs =>
      obtain ⟨rest, hqs, hok⟩ := bind_eq_ok hrest
      cases hok
      rw [run_seq, run_lowerPayloadBranches (q :: qs) hqs (by simpa using hlen)]
      simp [Test.run, Value.payloadItem, run_lowerTestBranch p hsub]

end

end Arandu.Match
