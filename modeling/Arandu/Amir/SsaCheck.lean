import Arandu.Amir.Dominators
import Arandu.Amir.Ssa

/-!
# Deciding SSA form

`isSsa` lists every definition site and looks up each use in the list, with the function's
own dominator tree. What it accepts is in SSA form.
-/

namespace Arandu.Amir

open Arandu.Library List Dominators

section Check

variable (f : AmirFunc)

/-- Every definition with its site. -/
def defSites : List (TempId × DefSite) :=
  (f.params ++ f.receiver.toList).map (fun t => (t, .input)) ++
    (List.range f.blocks.length).flatMap (fun b =>
      (f.blockParamsOf b).zipIdx.map fun pi => (pi.1.id, .param b pi.2)) ++
    f.stmts.zipIdx.flatMap (fun si => si.1.def?.toList.map fun t => (t, .stmt si.2))

/-- `AmirFunc.Precedes`, with dominance read off a dominator tree. -/
def precedes (doms : Dominators) (b : BlockId) (k : Nat) : DefSite → Bool
  | .input => true
  | .param d _ => doms.dominates d b
  | .stmt id => (List.range f.blocks.length).any fun d =>
      (f.blockStmtIds d).zipIdx.any fun ij =>
        ij.1 == id && (d == b && ij.2 < k || d != b && doms.dominates d b)

/-- The uses of a block with their positions. -/
def blockUses (b : BlockId) : List (TempId × Nat) :=
  (f.blockStmts b).zipIdx.flatMap (fun sk =>
      (operandTemps sk.1.operands).map fun t => (t, sk.2)) ++
    (operandTemps (f.block b).terminator.operands).map fun t => (t, (f.blockStmts b).length)

def isSsa : Bool :=
  match new f with
  | none => false
  | some doms =>
    decide ((defSites f).map Prod.fst).Nodup && (List.range f.blocks.length).all fun b =>
        (blockUses f b).all fun use =>
          (defSites f).any fun site => site.1 == use.1 && precedes f doms b use.2 site.2

end Check

variable {f : AmirFunc} {s : DefSite} {t : TempId} {b : BlockId} {k : Nat}

lemma mem_defSites : (t, s) ∈ defSites f ↔ f.DefinedAt t s := by
  cases s with
  | input => simp [defSites, AmirFunc.DefinedAt]
  | param b i =>
    have hb : ∀ p, (f.blockParamsOf b)[i]? = some p → p.id = t → b < f.blocks.length :=
      fun p hp _ => AmirFunc.lt_of_mem_blockParamsOf (mem_of_getElem? hp)
    simpa [defSites, AmirFunc.DefinedAt, mem_zipIdx_iff_getElem?] using hb
  | stmt id => simp [defSites, AmirFunc.DefinedAt, mem_zipIdx_iff_getElem?]

lemma mem_blockUses (h : f.UsedAt t b k) : b < f.blocks.length ∧ (t, k) ∈ blockUses f b := by
  have hb : b < f.blocks.length := by
    rcases h with ⟨s, hs, -⟩ | ⟨-, ht⟩
    · exact AmirFunc.lt_of_mem_blockStmts (mem_of_getElem? hs)
    · exact lt_of_mem_operandTemps ht
  refine ⟨hb, ?_⟩
  rcases h with ⟨s, hs, ht⟩ | ⟨rfl, ht⟩
  · exact mem_append_left _ (mem_flatMap.2
      ⟨(s, k), mem_zipIdx_iff_getElem?.2 hs, mem_map.2 ⟨t, ht, rfl⟩⟩)
  · exact mem_append_right _ (mem_map.2 ⟨t, ht, rfl⟩)

section

variable (hcfg : f.CfgCovers) (htargets : ∀ m n, f.Edge m n → n < f.blocks.length)

include hcfg htargets

lemma precedes_sound {doms : Dominators} (hdoms : new f = some doms)
    (h : precedes f doms b k s = true) : f.Precedes s b k := by
  have hdom : ∀ d, doms.dominates d b = true → Dominates f.Edge 0 d b := fun d hd =>
    (dominates_sound hcfg.mirror hdoms hd).anti (AmirFunc.edge_stored hcfg htargets)
  cases s with
  | input => trivial
  | param d i => exact hdom d h
  | stmt id =>
    obtain ⟨d, -, hd⟩ := any_eq_true.1 h
    obtain ⟨⟨id', j⟩, hj, hcond⟩ := any_eq_true.1 hd
    simp only [Bool.and_eq_true, Bool.or_eq_true, beq_iff_eq, bne_iff_ne,
      decide_eq_true_eq] at hcond
    obtain ⟨rfl, hpos⟩ := hcond
    refine ⟨d, j, mem_zipIdx_iff_getElem?.1 hj, ?_⟩
    rcases hpos with ⟨hdb, hlt⟩ | ⟨hdb, hd⟩
    · exact .inl ⟨hdb, hlt⟩
    · exact .inr ⟨hdb, hdom d hd⟩

lemma ssa_of_isSsa (h : isSsa f = true) : f.Ssa := by
  unfold isSsa at h
  split at h
  · cases h
  next doms hdoms =>
  rw [Bool.and_eq_true, decide_eq_true_eq] at h
  obtain ⟨hnodup, huses⟩ := h
  constructor
  · intro t s s' hs hs'
    have := inj_on_of_nodup_map hnodup (mem_defSites.2 hs) (mem_defSites.2 hs') rfl
    exact (Prod.mk.inj this).2
  · intro t b k _ huse
    obtain ⟨hb, hmem⟩ := mem_blockUses huse
    have hall := all_eq_true.1 (all_eq_true.1 huses b (mem_range.2 hb)) (t, k) hmem
    obtain ⟨⟨t', s⟩, hsite, hcond⟩ := any_eq_true.1 hall
    simp only [Bool.and_eq_true, beq_iff_eq] at hcond
    obtain ⟨rfl, hpre⟩ := hcond
    exact ⟨s, mem_defSites.1 hsite, precedes_sound hcfg htargets hdoms hpre⟩

end

end Arandu.Amir
