import Arandu.Amir.Ssa

/-!
# Definitions before uses

A function is strict if every use of a temp is preceded by a definition of it on every path.
Functions in SSA form are strict; passes that duplicate a definition keep a function strict
although it is not in SSA form any more.
-/

namespace Arandu.Amir

open Arandu.Library

namespace AmirFunc

/-- Some definition of `t` precedes position `k` of block `b`: an input, a parameter of a
dominating block, or an earlier statement. -/
def DefinedBefore (f : AmirFunc) (t : TempId) (b : BlockId) (k : Nat) : Prop :=
  (t ∈ f.params ∨ f.receiver = some t) ∨
    (∃ d, t ∈ (f.blockParamsOf d).map BlockParam.id ∧ Dominates f.Edge 0 d b) ∨
    ∃ d j s, (f.blockStmts d)[j]? = some s ∧ s.def? = some t ∧ f.After d (j + 1) b k

variable {f : AmirFunc}

lemma DefinedBefore.mono {t : TempId} {b : BlockId} {k k' : Nat}
    (h : f.DefinedBefore t b k) (hle : k ≤ k') : f.DefinedBefore t b k' := by
  rcases h with hinput | hparam | ⟨d, j, s, hs, hdef, hafter⟩
  · exact .inl hinput
  · exact .inr (.inl hparam)
  · refine .inr (.inr ⟨d, j, s, hs, hdef, ?_⟩)
    exact hafter.imp_left fun h => ⟨h.1, h.2.trans hle⟩

def Strict (f : AmirFunc) : Prop :=
  ∀ t b k, Reachable f.Edge 0 b → f.UsedAt t b k → f.DefinedBefore t b k

lemma Ssa.strict (hssa : f.Ssa) : f.Strict := by
  intro t b k hb huse
  obtain ⟨site, hdef, hpre⟩ := hssa.uses hb huse
  cases site with
  | input => exact .inl hdef
  | param d i =>
    obtain ⟨p, hp, rfl⟩ := hdef
    exact .inr (.inl ⟨d, List.mem_map.2 ⟨p, List.mem_of_getElem? hp, rfl⟩, hpre⟩)
  | stmt id =>
    obtain ⟨s, hs, hdef⟩ := hdef
    obtain ⟨d, j, hid, hafter⟩ := hpre
    refine .inr (.inr ⟨d, j, s, ?_, hdef, hafter⟩)
    obtain ⟨hlt, hget⟩ := List.getElem?_eq_some_iff.1 hs
    rw [AmirFunc.blockStmts, List.getElem?_map, hid, Option.map_some,
      AmirFunc.stmt_eq_getElem hlt, hget]

end AmirFunc

end Arandu.Amir
