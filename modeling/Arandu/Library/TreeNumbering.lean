import Arandu.Library.Dfs

/-!
# Numbering a tree for constant-time ancestor tests

A table of parents over the nodes `0, …, n - 1`, whose root `0` is its own parent, is walked
depth first. A node gets a pre-order number when its frame is opened and a post-order
number when its frame is closed. If the interval of `b` is nested in the interval of `a`,
then `a` is an ancestor of `b`.
-/

namespace Arandu.Library

open List

/-- Numbers given so far, and the two counters. -/
structure Numbering where
  pre : Nat → Nat
  post : Nat → Nat
  preCounter : Nat
  postCounter : Nat

namespace Numbering

/-- Open the frame of `v`. -/
def opened (s : Numbering) (v : Nat) : Numbering :=
  { s with
    pre := fun x => if x = v then s.preCounter + 1 else s.pre x
    preCounter := s.preCounter + 1 }

/-- Close the frame of `v`. -/
def closed (s : Numbering) (v : Nat) : Numbering :=
  { s with
    post := fun x => if x = v then s.postCounter + 1 else s.post x
    postCounter := s.postCounter + 1 }

def start : Numbering := ⟨fun _ => 0, fun _ => 0, 0, 0⟩

end Numbering

section Loop

variable (n : Nat) (parent : Nat → Option Nat)

/-- The children of `u`, in increasing order. -/
def childrenOf (u : Nat) : List Nat :=
  (List.range n).filter fun v => parent v = some u ∧ u ≠ v

/-- Number the children of the topmost frame, then close it. -/
def numberLoop (children : Nat → List Nat) :
    Nat → Numbering → List (Nat × Nat) → Numbering
  | 0, s, _ => s
  | _ + 1, s, [] => s
  | fuel + 1, s, (b, k) :: stack =>
    match (children b)[k]? with
    | some c => numberLoop children fuel (s.opened c) ((c, 0) :: (b, k + 1) :: stack)
    | none => numberLoop children fuel (s.closed b) stack

def numberTree : Numbering :=
  let children := childrenOf n parent
  numberLoop children (dfsFuel n children) (Numbering.start.opened 0) [(0, 0)]

/-- Every suspended frame belongs to the parent of the frame above it. -/
def TreePath : List (Nat × Nat) → Prop
  | [] | [_] => True
  | (b, _) :: (c, k) :: rest => parent b = some c ∧ TreePath ((c, k) :: rest)

/-- What holds between two iterations; `seen` lists the nodes opened so far. -/
structure NumberInv (s : Numbering) (seen : List Nat) (stack : List (Nat × Nat)) : Prop where
  root : 0 ∈ seen
  bound : ∀ x ∈ seen, x < n
  stack_seen : ∀ x ∈ stack.map Prod.fst, x ∈ seen
  stack_nodup : (stack.map Prod.fst).Nodup
  path : TreePath parent stack
  pre_le : ∀ x ∈ seen, s.pre x ≤ s.preCounter
  pre_inj : ∀ x ∈ seen, ∀ y ∈ seen, s.pre x = s.pre y → x = y
  post_le : ∀ x ∈ seen, x ∉ stack.map Prod.fst → s.post x ≤ s.postCounter
  nested : ∀ x ∈ seen, ∀ y ∈ seen, s.pre x < s.pre y → Ancestor parent x y ∨
    (x ∉ stack.map Prod.fst ∧ (y ∉ stack.map Prod.fst → s.post x < s.post y))
  seen_parent : ∀ x ∈ seen, x = 0 ∨ ∃ u ∈ seen, parent x = some u ∧
    ∀ k, (u, k) ∈ stack → x ∈ (childrenOf n parent u).take k
  scanned : ∀ u k, (u, k) ∈ stack → ∀ v ∈ (childrenOf n parent u).take k, v ∈ seen
  finished : ∀ u ∈ seen, u ∉ stack.map Prod.fst → ∀ v ∈ childrenOf n parent u, v ∈ seen
  inside : ∀ x ∈ seen, ∀ u, parent x = some u → s.pre u ≤ s.pre x ∧
    (u ∉ stack.map Prod.fst → x ∉ stack.map Prod.fst ∧ s.post x ≤ s.post u)

end Loop

variable {n v u b k : Nat} {parent : Nat → Option Nat}

lemma mem_childrenOf : v ∈ childrenOf n parent u ↔ v < n ∧ parent v = some u ∧ u ≠ v := by
  simp [childrenOf]

lemma childrenOf_nodup (u : Nat) : (childrenOf n parent u).Nodup :=
  nodup_range.filter _

/-! ## One iteration -/

variable {rest : List (Nat × Nat)}

lemma TreePath.tail {fr : Nat × Nat} (h : TreePath parent (fr :: rest)) : TreePath parent rest := by
  cases rest with
  | nil => trivial
  | cons fr' rest => exact h.2

lemma TreePath.advance {k' : Nat}
    (h : TreePath parent ((b, k) :: rest)) : TreePath parent ((b, k') :: rest) := by
  cases rest with
  | nil => trivial
  | cons fr' rest => exact h

lemma TreePath.ancestor (h : TreePath parent ((b, k) :: rest)) :
    ∀ x ∈ ((b, k) :: rest).map Prod.fst, Ancestor parent x b := by
  induction rest generalizing b k with
  | nil =>
    intro x hx
    rw [mem_singleton.1 hx]
    exact .refl b
  | cons fr rest ih =>
    intro x hx
    rcases mem_cons.1 hx with rfl | hx
    · exact .refl x
    · exact .up h.1 (ih h.2 x hx)

variable {stack : List (Nat × Nat)} {seen : List Nat} {s : Numbering}

section

variable (h0 : parent 0 = some 0)
include h0

lemma NumberInv.parent_seen (h : NumberInv n parent s seen stack) {x : Nat} (hx : x ∈ seen)
    (hu : parent x = some u) : u ∈ seen := by
  rcases h.seen_parent x hx with rfl | ⟨v, hv, hpar, -⟩
  · rw [h0] at hu
    exact Option.some.inj hu ▸ hx
  · rw [hu] at hpar
    exact Option.some.inj hpar ▸ hv

lemma NumberInv.pre_le_of_ancestor (h : NumberInv n parent s seen stack) {a : Nat}
    (hb : b ∈ seen) (hab : Ancestor parent a b) : s.pre a ≤ s.pre b := by
  induction hab with
  | refl => exact le_rfl
  | up hpar _ ih => exact (ih (h.parent_seen h0 hb hpar)).trans (h.inside _ hb _ hpar).1

variable {b k c : Nat} (h : NumberInv n parent s seen ((b, k) :: stack))
include h

lemma NumberInv.child_new (hc : (childrenOf n parent b)[k]? = some c) : c ∉ seen := by
  intro hseen
  obtain ⟨-, hpar, hne⟩ := mem_childrenOf.1 (mem_of_getElem? hc)
  rcases h.seen_parent c hseen with rfl | ⟨u, -, hu, htake⟩
  · rw [h0] at hpar
    exact hne (Option.some.inj hpar).symm
  rw [hpar] at hu
  cases hu
  -- it would already stand among the first `k` children
  obtain ⟨i, hi, hget⟩ := mem_iff_getElem.1 (htake k mem_cons_self)
  have hik : i < k := by
    rw [length_take] at hi
    omega
  rw [getElem_take] at hget
  obtain ⟨hk, hkc⟩ := List.getElem?_eq_some_iff.1 hc
  have := (childrenOf_nodup b).getElem_inj_iff.1 (hget.trans hkc.symm)
  omega

lemma NumberInv.open_child (hc : (childrenOf n parent b)[k]? = some c) :
    NumberInv n parent (s.opened c) (c :: seen) ((c, 0) :: (b, k + 1) :: stack) := by
  have hnew : c ∉ seen := h.child_new h0 hc
  obtain ⟨hlt, hpar, hne⟩ := mem_childrenOf.1 (mem_of_getElem? hc)
  have hpre : ∀ x ∈ seen, (s.opened c).pre x = s.pre x := by
    intro x hx
    have : x ≠ c := fun heq => hnew (heq ▸ hx)
    simp [Numbering.opened, this]
  have hprec : (s.opened c).pre c = s.preCounter + 1 := by simp [Numbering.opened]
  have hstill : ∀ x ∈ seen, x ∉ b :: stack.map Prod.fst → x ∉ c :: b :: stack.map Prod.fst :=
    fun x hx => not_mem_cons_of_ne_of_not_mem fun heq => hnew (heq ▸ hx)
  constructor
  · exact mem_cons_of_mem _ h.root
  · exact forall_mem_cons.2 ⟨hlt, h.bound⟩
  · exact forall_mem_cons.2 ⟨mem_cons_self, fun x hx => mem_cons_of_mem _ (h.stack_seen x hx)⟩
  · have hnot : c ∉ b :: stack.map Prod.fst := fun hmem => hnew (h.stack_seen c hmem)
    exact nodup_cons.2 ⟨hnot, h.stack_nodup⟩
  · exact ⟨hpar, h.path.advance⟩
  · refine forall_mem_cons.2 ⟨hprec.le, fun x hx => ?_⟩
    rw [hpre x hx]
    exact Nat.le_succ_of_le (h.pre_le x hx)
  · intro x hxc y hyc heq
    rcases mem_cons.1 hxc with rfl | hx <;> rcases mem_cons.1 hyc with rfl | hy
    · rfl
    · rw [hpre y hy] at heq
      have := h.pre_le y hy
      omega
    · rw [hpre x hx] at heq
      have := h.pre_le x hx
      omega
    · rw [hpre x hx, hpre y hy] at heq
      exact h.pre_inj x hx y hy heq
  · exact forall_mem_cons.2 ⟨fun hopen => absurd mem_cons_self hopen, fun x hx hopen =>
      h.post_le x hx fun hmem => hopen (mem_cons_of_mem _ hmem)⟩
  · intro x hxc y hyc hlt'
    rcases mem_cons.1 hxc with rfl | hx <;> rcases mem_cons.1 hyc with rfl | hy
    · omega
    · rw [hpre y hy] at hlt'
      have := h.pre_le y hy
      omega
    · -- the new node: open nodes are its ancestors, closed ones were closed before it
      by_cases hopen : x ∈ b :: stack.map Prod.fst
      · exact .inl (.up hpar (h.path.ancestor x hopen))
      · exact .inr ⟨hstill x hx hopen, fun hclosed => absurd mem_cons_self hclosed⟩
    · rw [hpre x hx, hpre y hy] at hlt'
      rcases h.nested x hx y hy hlt' with hanc | ⟨hxo, hpost⟩
      · exact .inl hanc
      · exact .inr ⟨hstill x hx hxo, fun hyo => hpost fun hmem => hyo (mem_cons_of_mem _ hmem)⟩
  · intro x hx
    rcases mem_cons.1 hx with rfl | hx
    · refine .inr ⟨b, mem_cons_of_mem _ (h.stack_seen b mem_cons_self), hpar, ?_⟩
      intro j hj
      rcases mem_cons.1 hj with heq | hj
      · exact absurd (congrArg Prod.fst heq) hne
      rcases mem_cons.1 hj with heq | hj
      · cases heq
        rw [take_add_one, hc]
        simp
      · -- the parent is open once only
        have hnd := h.stack_nodup
        exact absurd (mem_map_of_mem hj) (nodup_cons.1 hnd).1
    · rcases h.seen_parent x hx with hroot | ⟨u, hus, hu, htake⟩
      · exact .inl hroot
      · refine .inr ⟨u, mem_cons_of_mem _ hus, hu, ?_⟩
        intro j hj
        rcases mem_cons.1 hj with heq | hj
        · cases heq
          exact absurd hus hnew
        rcases mem_cons.1 hj with heq | hj
        · cases heq
          rw [take_add_one]
          exact mem_append_left _ (htake k mem_cons_self)
        · exact htake j (mem_cons_of_mem _ hj)
  · intro u j hj v hv
    rcases mem_cons.1 hj with heq | hj
    · cases heq
      simp at hv
    rcases mem_cons.1 hj with heq | hj
    · cases heq
      rw [take_add_one, hc, mem_append] at hv
      rcases hv with hv | hv
      · exact mem_cons_of_mem _ (h.scanned b k mem_cons_self v hv)
      · have : v = c := by simpa using hv
        exact this ▸ mem_cons_self
    · exact mem_cons_of_mem _ (h.scanned u j (mem_cons_of_mem _ hj) v hv)
  · refine forall_mem_cons.2 ⟨fun hopen => absurd mem_cons_self hopen, fun u hu hopen v hv => ?_⟩
    exact mem_cons_of_mem _ (h.finished u hu (fun hmem => hopen (mem_cons_of_mem _ hmem)) v hv)
  · intro x hx u hu
    rcases mem_cons.1 hx with rfl | hx
    · rw [hpar] at hu
      cases hu
      have hb : b ∈ seen := h.stack_seen b mem_cons_self
      rw [hprec, hpre b hb]
      exact ⟨Nat.le_succ_of_le (h.pre_le b hb),
        fun hopen => absurd (mem_cons_of_mem _ mem_cons_self) hopen⟩
    · rw [hpre x hx, hpre u (h.parent_seen h0 hx hu)]
      obtain ⟨hle, hclosed⟩ := h.inside x hx u hu
      refine ⟨hle, fun hopen => ?_⟩
      obtain ⟨hxo, hpost⟩ := hclosed fun hmem => hopen (mem_cons_of_mem _ hmem)
      exact ⟨hstill x hx hxo, hpost⟩

lemma NumberInv.close (hc : (childrenOf n parent b)[k]? = none) :
    NumberInv n parent (s.closed b) seen stack := by
  have hb : b ∉ stack.map Prod.fst := (nodup_cons.1 h.stack_nodup).1
  have hpost : ∀ x, x ≠ b → (s.closed b).post x = s.post x := by
    intro x hx
    simp [Numbering.closed, hx]
  have hpostb : (s.closed b).post b = s.postCounter + 1 := by simp [Numbering.closed]
  have hstill : ∀ x, x ≠ b → x ∉ stack.map Prod.fst → x ∉ ((b, k) :: stack).map Prod.fst :=
    fun _ => not_mem_cons_of_ne_of_not_mem
  constructor
  · exact h.root
  · exact h.bound
  · exact fun x hx => h.stack_seen x (mem_cons_of_mem _ hx)
  · exact (nodup_cons.1 h.stack_nodup).2
  · exact h.path.tail
  · exact h.pre_le
  · exact h.pre_inj
  · intro x hx hopen
    by_cases hxb : x = b
    · rw [hxb, hpostb]
      exact le_rfl
    · rw [hpost x hxb]
      exact Nat.le_succ_of_le (h.post_le x hx (hstill x hxb hopen))
  · intro x hx y hy hlt
    rcases h.nested x hx y hy hlt with hanc | ⟨hxo, hxy⟩
    · exact .inl hanc
    have hxb : x ≠ b := fun heq => hxo (heq ▸ mem_cons_self)
    refine .inr ⟨fun hmem => hxo (mem_cons_of_mem _ hmem), fun hyo => ?_⟩
    rw [hpost x hxb]
    by_cases hyb : y = b
    · rw [hyb, hpostb]
      exact Nat.lt_succ_of_le (h.post_le x hx hxo)
    · rw [hpost y hyb]
      exact hxy (hstill y hyb hyo)
  · intro x hx
    rcases h.seen_parent x hx with hroot | ⟨u, hus, hu, htake⟩
    · exact .inl hroot
    · exact .inr ⟨u, hus, hu, fun j hj => htake j (mem_cons_of_mem _ hj)⟩
  · exact fun u j hj => h.scanned u j (mem_cons_of_mem _ hj)
  · intro u hu hopen v hv
    by_cases hub : u = b
    · subst hub
      have hlen : (childrenOf n parent u).length ≤ k := getElem?_eq_none_iff.1 hc
      exact h.scanned u k mem_cons_self v (by rwa [take_of_length_le hlen])
    · exact h.finished u hu (hstill u hub hopen) v hv
  · intro x hx u hu
    obtain ⟨hle, hclosed⟩ := h.inside x hx u hu
    refine ⟨hle, fun hopen => ?_⟩
    by_cases hub : u = b
    · subst hub
      -- an open node below its own child would have the same number
      have hxo : x ∉ stack.map Prod.fst := by
        intro hmem
        have hanc := h.path.ancestor x (mem_cons_of_mem _ hmem)
        have hle' := h.pre_le_of_ancestor h0 (h.stack_seen u mem_cons_self) hanc
        have heq := h.pre_inj u (h.stack_seen u mem_cons_self) x hx (le_antisymm hle hle')
        exact hb (heq ▸ hmem)
      refine ⟨hxo, ?_⟩
      rw [hpostb]
      by_cases hxu : x = u
      · rw [hxu, hpostb]
      · rw [hpost x hxu]
        exact Nat.le_succ_of_le (h.post_le x hx (hstill x hxu hxo))
    · obtain ⟨hxo, hle'⟩ := hclosed (hstill u hub hopen)
      refine ⟨fun hmem => hxo (mem_cons_of_mem _ hmem), ?_⟩
      rw [hpost x fun heq => hxo (heq ▸ mem_cons_self), hpost u hub]
      exact hle'

end

/-! ## The whole walk -/

lemma numberLoop_inv (h0 : parent 0 = some 0) {fuel : Nat} (h : NumberInv n parent s seen stack)
    (hfuel : dfsMeasure n (childrenOf n parent) seen stack ≤ fuel) :
    ∃ seen', NumberInv n parent (numberLoop (childrenOf n parent) fuel s stack) seen' [] := by
  induction fuel generalizing s seen stack with
  | zero =>
    cases stack with
    | nil => exact ⟨seen, h⟩
    | cons fr stack =>
      have : dfsMeasure n (childrenOf n parent) seen stack <
          dfsMeasure n (childrenOf n parent) seen (fr :: stack) := dfsMeasure_pop
      omega
  | succ fuel ih =>
    cases stack with
    | nil => exact ⟨seen, h⟩
    | cons fr stack =>
      obtain ⟨b, k⟩ := fr
      unfold numberLoop
      split
      next c hc =>
        have hadv : dfsMeasure n (childrenOf n parent) seen ((b, k + 1) :: stack) + 1 =
            dfsMeasure n (childrenOf n parent) seen ((b, k) :: stack) := dfsMeasure_advance hc
        have hlt : c < n := (mem_childrenOf.1 (mem_of_getElem? hc)).1
        refine ih (h.open_child h0 hc) ?_
        rw [dfsMeasure_visit hlt (h.child_new h0 hc)]
        omega
      next hc =>
        have : dfsMeasure n (childrenOf n parent) seen stack <
            dfsMeasure n (childrenOf n parent) seen ((b, k) :: stack) := dfsMeasure_pop
        exact ih (h.close h0 hc) (by omega)

lemma numberInv_start (hn : 0 < n) (h0 : parent 0 = some 0) :
    NumberInv n parent (Numbering.start.opened 0) [0] [(0, 0)] := by
  constructor <;> simp [TreePath, Numbering.opened, hn, h0]

lemma numberTree_inv (hn : 0 < n) (h0 : parent 0 = some 0) :
    ∃ seen, NumberInv n parent (numberTree n parent) seen [] := by
  refine numberLoop_inv h0 (numberInv_start hn h0) ?_
  rw [dfsMeasure_visit hn not_mem_nil]
  simp [dfsMeasure, dfsFuel]

/-- A node all of whose proper ancestors lead to the root is numbered. -/
lemma NumberInv.seen_of_ancestor (h : NumberInv n parent s seen []) (hroot : Ancestor parent 0 v)
    (hlt : ∀ x, Ancestor parent x v → x < n) : v ∈ seen := by
  induction hroot with
  | refl => exact h.root
  | @up m w hpar hanc ih =>
    have hm : m ∈ seen := ih (fun x hx => hlt x (.up hpar hx))
    by_cases hmw : m = w
    · exact hmw ▸ hm
    · exact h.finished m hm not_mem_nil w (mem_childrenOf.2 ⟨hlt w (.refl w), hpar, hmw⟩)

lemma nested_of_ancestor (hn : 0 < n) (h0 : parent 0 = some 0) {a : Nat}
    (hb : Ancestor parent 0 b) (hblt : ∀ x, Ancestor parent x b → x < n)
    (hab : Ancestor parent a b) : (numberTree n parent).pre a ≤ (numberTree n parent).pre b ∧
      (numberTree n parent).post b ≤ (numberTree n parent).post a := by
  obtain ⟨seen, h⟩ := numberTree_inv hn h0
  have hbs := h.seen_of_ancestor hb hblt
  refine ⟨h.pre_le_of_ancestor h0 hbs hab, ?_⟩
  clear hb hblt
  induction hab with
  | refl => exact le_rfl
  | up hpar _ ih =>
    exact ((h.inside _ hbs _ hpar).2 not_mem_nil).2.trans (ih (h.parent_seen h0 hbs hpar))

lemma ancestor_of_nested (hn : 0 < n) (h0 : parent 0 = some 0) {a : Nat}
    (ha : Ancestor parent 0 a) (hb : Ancestor parent 0 b)
    (halt : ∀ x, Ancestor parent x a → x < n) (hblt : ∀ x, Ancestor parent x b → x < n)
    (hpre : (numberTree n parent).pre a ≤ (numberTree n parent).pre b)
    (hpost : (numberTree n parent).post b ≤ (numberTree n parent).post a) :
    Ancestor parent a b := by
  obtain ⟨seen, h⟩ := numberTree_inv hn h0
  have has := h.seen_of_ancestor ha halt
  have hbs := h.seen_of_ancestor hb hblt
  rcases Nat.lt_or_eq_of_le hpre with hlt | heq
  · rcases h.nested a has b hbs hlt with hanc | ⟨-, hpost'⟩
    · exact hanc
    · have := hpost' not_mem_nil
      omega
  · rw [h.pre_inj a has b hbs heq]
    exact .refl b

end Arandu.Library
