import Arandu.Amir.Frame
import Arandu.Library.Acceleration
import Arandu.Mir.SimplifyCfg.Pass

/-!
# Functions that fold block steps

A simplified function runs the same statements in fewer blocks. `Folds f g` says that, in
every environment and from every state, the run of `g` is an acceleration of the run of
`f`: each configuration of `g` has the state, trace included, of a configuration of `f`
that is at least as far from the start. Every transformation of the pass is shown to
fold, and folding composes.
-/

namespace Arandu.Mir.SimplifyCfg

open Arandu.Amir Arandu.Library

/-- The same state, and the same outcome if halted; blocks may have other numbers. -/
inductive SameState {h : Host} : Config h → Config h → Prop
  | running (b b' : BlockId) (st : State h) : SameState (.running b st) (.running b' st)
  | halted (o : Outcome h) (st : State h) : SameState (.halted o st) (.halted o st)

lemma SameState.refl {h : Host} (c : Config h) : SameState c c := by
  cases c with
  | running b st => exact .running b b st
  | halted o st => exact .halted o st

lemma SameState.trans {h : Host} {c d e : Config h} (hcd : SameState c d)
    (hde : SameState d e) : SameState c e := by
  cases hcd with
  | running b b' st =>
    cases hde with
    | running _ b'' _ => exact .running b b'' st
  | halted o st => exact hde

/-- The runs of `g` are those of `f` with some block boundaries left out. -/
def Folds (f g : AmirFunc) : Prop :=
  ∀ (E : Env) (st : State E.host),
    Accelerates SameState (step E f) (step E g) (.running 0 st) (.running 0 st)

lemma Folds.refl (f : AmirFunc) : Folds f f :=
  fun E st => .refl SameState.refl (step E f) (.running 0 st)

lemma Folds.trans {f g k : AmirFunc} (hfg : Folds f g) (hgk : Folds g k) : Folds f k := by
  intro E st
  have htrans : ∀ c d e : Config E.host, SameState c d → SameState d e → SameState c e :=
    fun _ _ _ => SameState.trans
  exact (hfg E st).trans htrans (hgk E st)

/-! ## Folding block by block -/

/-- Block `b` of the new function stands for block `origin b` of the old one; the run only
enters `live` blocks. -/
inductive Follows {h : Host} (origin : BlockId → BlockId) (live : BlockId → Prop) :
    Config h → Config h → Prop
  | running (b : BlockId) (st : State h) (hlive : live b) :
      Follows origin live (.running (origin b) st) (.running b st)
  | halted (o : Outcome h) (st : State h) : Follows origin live (.halted o st) (.halted o st)

lemma folds_of_blocks {f g : AmirFunc} (origin : BlockId → BlockId) (live : BlockId → Prop)
    (hzero : origin 0 = 0) (hlive : live 0)
    (hstep : ∀ (E : Env) b (st : State E.host), live b → ∃ k, 1 ≤ k ∧
      Follows origin live ((step E f)^[k] (.running (origin b) st)) (step E g (.running b st))) :
    Folds f g := by
  intro E st
  refine .of_invariant (I := Follows origin live) ?_ ?_ ?_
  · intro c d hfollows
    cases hfollows with
    | running b st _ => exact .running _ _ st
    | halted o st => exact .halted o st
  · intro c d hfollows
    cases hfollows with
    | running b st hb => exact hstep E b st hb
    | halted o st => exact ⟨1, Nat.le_refl 1, .halted o st⟩
  · have hstart : Follows origin live (.running (origin 0) st) (.running 0 st) :=
      .running 0 st hlive
    rwa [hzero] at hstart

/-! ## Terminators under a renumbering -/

section Terminators

variable {E : Env} {f g : AmirFunc} {origin : BlockId → BlockId} {live : BlockId → Prop}
  {map : BlockId → Option BlockId}

@[simp] lemma remapTerminator_none (term : AmirTerminator) :
    remapTerminator (fun _ => none) term = term := by
  cases term <;> simp [remapTerminator]

/-- A target keeps its parameters under its new number. -/
structure Renumbers (f g : AmirFunc) (origin : BlockId → BlockId) (live : BlockId → Prop)
    (map : BlockId → Option BlockId) (t : BlockId) : Prop where
  origin : origin ((map t).getD t) = t
  live : live ((map t).getD t)
  params : g.blockParamsOf ((map t).getD t) = f.blockParamsOf t

lemma jump_follows (htemps : g.temps = f.temps) {t : BlockId}
    (ht : Renumbers f g origin live map t) (st : State E.host) (args : List AmirOperand) :
    Follows origin live (jump E f st t args) (jump E g st ((map t).getD t) args) := by
  unfold jump
  rw [ht.params, paramValues_congr htemps]
  cases paramValues E f st (f.blockParamsOf t) args with
  | error e => exact .halted _ st
  | ok as =>
    have hrunning : Follows origin live (.running (origin ((map t).getD t)) (setParams E st as))
        (.running ((map t).getD t) (setParams E st as)) := .running _ _ ht.live
    rwa [ht.origin] at hrunning

lemma execTerminator_follows (htemps : g.temps = f.temps) {term : AmirTerminator}
    (hterm : ∀ t ∈ term.targets, Renumbers f g origin live map t) (st : State E.host) :
    Follows origin live (execTerminator E f st term)
      (execTerminator E g st (remapTerminator map term)) := by
  have hmap : remapTerminator map term = term.mapEdges fun e => ((map e.1).getD e.1, e.2) := by
    cases term <;> rfl
  rw [hmap]
  exact execTerminator_rel (fun _ _ => rfl) rfl (fun _ => rfl) (fun o => .halted o st)
    fun heap e he => jump_follows htemps (hterm e.1 (AmirTerminator.mem_targets_of_mem_edges he))
      { st with heap := heap } e.2

variable (map) in
lemma step_follows (htemps : g.temps = f.temps) {b : BlockId}
    (hstmts : g.blockStmts b = f.blockStmts (origin b))
    (hterm : (g.block b).terminator = remapTerminator map (f.block (origin b)).terminator)
    (htargets : ∀ t ∈ (f.block (origin b)).terminator.targets, Renumbers f g origin live map t)
    (st : State E.host) :
    Follows origin live (step E f (.running (origin b) st)) (step E g (.running b st)) := by
  simp only [step, hstmts, hterm, runStmts_congr htemps]
  cases runStmts E f (f.blockStmts (origin b)) st with
  | error e => exact .halted _ _
  | ok st' => exact execTerminator_follows htemps htargets st'

end Terminators

lemma folds_of_same {f g : AmirFunc} (htemps : g.temps = f.temps)
    (hparams : ∀ b, g.blockParamsOf b = f.blockParamsOf b)
    (hterm : ∀ b, (g.block b).terminator = (f.block b).terminator)
    (hstmts : ∀ b, g.blockStmts b = f.blockStmts b) : Folds f g := by
  refine folds_of_blocks id (fun _ => True) rfl trivial fun E b st _ => ⟨1, Nat.le_refl 1, ?_⟩
  refine step_follows (fun _ => none) htemps (hstmts b) ?_ ?_ st
  · rw [remapTerminator_none]
    exact hterm b
  · exact fun t _ => ⟨rfl, trivial, hparams t⟩

end Arandu.Mir.SimplifyCfg
