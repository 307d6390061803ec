import Mathlib

/-!
# Extents: sorted, coalesced lists of intervals

A free list is a list of extents `[start, start + len)`. It is *gapped* when
it is strictly address-ordered and no two members overlap or touch. Gapped
lists are canonical: the list is a function of the set it covers
(`Gapped.ext`), so what an operation does to a free list is fully said by what
it does to the covered set.

`cut` takes an interval out of one extent; `Gapped.mid` is the only way a list
is put back together, and `join` makes one extent of two that touch.
`total_eq_card` counts.
-/

namespace OsProjects.Framework

/-- The interval `[start, start + len)`. -/
structure Ext where
  start : Nat
  len : Nat
deriving DecidableEq, Repr

namespace Ext

def stop (e : Ext) : Nat := e.start + e.len

def Has (e : Ext) (u : Nat) : Prop := e.start ≤ u ∧ u < e.stop

def Within (e : Ext) (lo hi : Nat) : Prop := lo ≤ e.start ∧ e.stop ≤ hi

/-- No unit in common. -/
def Apart (e f : Ext) : Prop := e.stop ≤ f.start ∨ f.stop ≤ e.start

instance (e : Ext) (u : Nat) : Decidable (e.Has u) :=
  inferInstanceAs (Decidable (_ ∧ _))

theorem Apart.symm {e f : Ext} (h : e.Apart f) : f.Apart e := Or.symm h

theorem Apart.not_has {e f : Ext} {u : Nat} (h : e.Apart f) (hu : e.Has u) :
    ¬ f.Has u := by
  unfold Apart Has at *
  omega

theorem apart_of_not_has {e f : Ext} (he : 0 < e.len) (hf : 0 < f.len)
    (h : ∀ u, e.Has u → ¬ f.Has u) : e.Apart f := by
  have h1 := h e.start
  have h2 := h f.start
  unfold Apart Has stop at *
  omega

end Ext

/-! ## Coverage -/

/-- `u` lies in some extent of the list. -/
def Covers (es : List Ext) (u : Nat) : Prop := ∃ e ∈ es, e.Has u

instance (es : List Ext) (u : Nat) : Decidable (Covers es u) :=
  inferInstanceAs (Decidable (∃ e ∈ es, e.Has u))

@[simp] theorem covers_nil (u : Nat) : ¬ Covers [] u := by
  simp [Covers]

@[simp] theorem covers_cons (e : Ext) (es : List Ext) (u : Nat) :
    Covers (e :: es) u ↔ e.Has u ∨ Covers es u := by
  simp [Covers]

@[simp] theorem covers_append (xs ys : List Ext) (u : Nat) :
    Covers (xs ++ ys) u ↔ Covers xs u ∨ Covers ys u := by
  simp only [Covers, List.mem_append]
  constructor
  · rintro ⟨e, he | he, hu⟩
    · exact Or.inl ⟨e, he, hu⟩
    · exact Or.inr ⟨e, he, hu⟩
  · rintro (⟨e, he, hu⟩ | ⟨e, he, hu⟩)
    · exact ⟨e, Or.inl he, hu⟩
    · exact ⟨e, Or.inr he, hu⟩

/-- Units covered, counted with multiplicity. -/
def total (es : List Ext) : Nat := (es.map Ext.len).sum

@[simp] theorem total_nil : total [] = 0 := rfl

@[simp] theorem total_cons (e : Ext) (es : List Ext) :
    total (e :: es) = e.len + total es := by
  simp [total]

@[simp] theorem total_append (xs ys : List Ext) :
    total (xs ++ ys) = total xs + total ys := by
  simp [total]

theorem covers_perm {xs ys : List Ext} (h : xs.Perm ys) (u : Nat) :
    Covers xs u ↔ Covers ys u := by
  simp only [Covers, h.mem_iff]

theorem total_perm {xs ys : List Ext} (h : xs.Perm ys) : total xs = total ys :=
  (h.map Ext.len).sum_eq

/-- **Counting.** Extents that are pairwise apart and lie in `[lo, hi)` cover
as many units of it as their lengths add up to. -/
theorem total_eq_card {lo hi : Nat} : ∀ {es : List Ext},
    es.Pairwise Ext.Apart → (∀ e ∈ es, e.Within lo hi) →
    ((Finset.Ico lo hi).filter (Covers es)).card = total es
  | [], _, _ => by simp
  | e :: es, hap, hin => by
      rcases List.pairwise_cons.mp hap with ⟨he, hes⟩
      have ih := total_eq_card hes (fun f hf => hin f (List.mem_cons_of_mem _ hf))
      have hew : e.Within lo hi := hin e List.mem_cons_self
      have hone : (Finset.Ico lo hi).filter e.Has = Finset.Ico e.start e.stop := by
        ext u
        simp only [Finset.mem_filter, Finset.mem_Ico, Ext.Has]
        unfold Ext.Within at hew
        omega
      have hsplit : (Finset.Ico lo hi).filter (Covers (e :: es)) =
          (Finset.Ico lo hi).filter e.Has ∪
            (Finset.Ico lo hi).filter (Covers es) := by
        ext u
        simp only [Finset.mem_filter, Finset.mem_union, covers_cons]
        tauto
      have hdisj : Disjoint ((Finset.Ico lo hi).filter e.Has)
          ((Finset.Ico lo hi).filter (Covers es)) := by
        rw [Finset.disjoint_left]
        intro u hu hu'
        obtain ⟨f, hf, hfu⟩ := (Finset.mem_filter.mp hu').2
        exact (he f hf).not_has (Finset.mem_filter.mp hu).2 hfu
      rw [hsplit, Finset.card_union_of_disjoint hdisj, ih, hone, Nat.card_Ico,
        total_cons]
      simp [Ext.stop]

theorem total_le {lo hi : Nat} {es : List Ext} (hap : es.Pairwise Ext.Apart)
    (hin : ∀ e ∈ es, e.Within lo hi) : total es ≤ hi - lo := by
  rw [← total_eq_card hap hin, ← Nat.card_Ico]
  exact Finset.card_filter_le _ _

/-- Apart extents that together cover the whole interval measure exactly it. -/
theorem total_of_covers {lo hi : Nat} {es : List Ext}
    (hap : es.Pairwise Ext.Apart) (hin : ∀ e ∈ es, e.Within lo hi)
    (hall : ∀ u, lo ≤ u → u < hi → Covers es u) : total es = hi - lo := by
  rw [← total_eq_card hap hin, ← Nat.card_Ico]
  congr 1
  ext u
  simp only [Finset.mem_filter, Finset.mem_Ico]
  exact ⟨fun h => h.1, fun h => ⟨h, hall u h.1 h.2⟩⟩

/-! ## Gapped lists -/

/-- Strictly address-ordered, nothing empty, nothing overlapping or touching. -/
structure Gapped (es : List Ext) : Prop where
  pos : ∀ e ∈ es, 0 < e.len
  gap : es.Pairwise fun e f => e.stop < f.start

theorem Gapped.nil : Gapped [] := ⟨by simp, List.Pairwise.nil⟩

theorem gapped_cons {e : Ext} {es : List Ext} :
    Gapped (e :: es) ↔ 0 < e.len ∧ (∀ f ∈ es, e.stop < f.start) ∧ Gapped es := by
  constructor
  · rintro ⟨hpos, hgap⟩
    rcases List.pairwise_cons.mp hgap with ⟨h1, h2⟩
    exact ⟨hpos e List.mem_cons_self, h1,
      ⟨fun f hf => hpos f (List.mem_cons_of_mem _ hf), h2⟩⟩
  · rintro ⟨h0, h1, h2⟩
    refine ⟨?_, List.pairwise_cons.mpr ⟨h1, h2.gap⟩⟩
    intro f hf
    rcases List.mem_cons.mp hf with rfl | hf
    · exact h0
    · exact h2.pos f hf

theorem gapped_append {xs ys : List Ext} :
    Gapped (xs ++ ys) ↔
      Gapped xs ∧ Gapped ys ∧ ∀ x ∈ xs, ∀ y ∈ ys, x.stop < y.start := by
  constructor
  · rintro ⟨hpos, hgap⟩
    obtain ⟨h1, h2, h3⟩ := List.pairwise_append.mp hgap
    exact ⟨⟨fun e he => hpos e (List.mem_append_left _ he), h1⟩,
      ⟨fun e he => hpos e (List.mem_append_right _ he), h2⟩, h3⟩
  · rintro ⟨h1, h2, h3⟩
    refine ⟨?_, List.pairwise_append.mpr ⟨h1.gap, h2.gap, h3⟩⟩
    intro e he
    rcases List.mem_append.mp he with he | he
    · exact h1.pos e he
    · exact h2.pos e he

theorem Gapped.apart {es : List Ext} (h : Gapped es) : es.Pairwise Ext.Apart :=
  h.gap.imp fun hlt => Or.inl (Nat.le_of_lt hlt)

theorem Gapped.total_eq_zero {es : List Ext} (h : Gapped es) : total es = 0 ↔ es = [] := by
  cases es with
  | nil => simp
  | cons e es =>
      have := h.pos e List.mem_cons_self
      simp only [total_cons, reduceCtorEq, iff_false]
      omega

/-- Putting one extent between two gapped lists. -/
theorem Gapped.mid {xs ys : List Ext} {m : Ext} (hx : Gapped xs) (hy : Gapped ys)
    (hm : 0 < m.len) (hl : ∀ x ∈ xs, x.stop < m.start)
    (hr : ∀ y ∈ ys, m.stop < y.start) : Gapped (xs ++ m :: ys) := by
  refine gapped_append.mpr ⟨hx, gapped_cons.mpr ⟨hm, hr, hy⟩, ?_⟩
  intro x hxm y hym
  have h1 := hl x hxm
  rcases List.mem_cons.mp hym with rfl | hym
  · exact h1
  · have h2 := hr y hym
    unfold Ext.stop at *
    omega

/-- The head starts first. -/
theorem Gapped.start_le {e f : Ext} {es : List Ext} (h : Gapped (e :: es)) (hf : f ∈ e :: es) :
    e.start ≤ f.start := by
  rcases List.mem_cons.mp hf with rfl | hf
  · exact Nat.le_refl _
  · have := (gapped_cons.mp h).2.1 f hf
    unfold Ext.stop at this
    omega

/-- What ends before the head ends before everything. -/
theorem Gapped.all_after {e f : Ext} {es : List Ext} (h : Gapped (f :: es))
    (hlt : e.stop < f.start) : ∀ x ∈ f :: es, e.stop < x.start := by
  intro x hx
  exact Nat.lt_of_lt_of_le hlt (h.start_le hx)

/-- Everything after the head starts beyond its end. -/
theorem Gapped.lt_of_covers_tail {e : Ext} {es : List Ext} {u : Nat}
    (h : Gapped (e :: es)) (hu : Covers es u) : e.stop < u := by
  obtain ⟨f, hf, hfu⟩ := hu
  have := (gapped_cons.mp h).2.1 f hf
  unfold Ext.Has at hfu
  omega

theorem Gapped.start_le_of_covers {e : Ext} {es : List Ext} {u : Nat}
    (h : Gapped (e :: es)) (hu : Covers (e :: es) u) : e.start ≤ u := by
  rcases (covers_cons _ _ _).mp hu with hu | hu
  · exact hu.1
  · have := h.lt_of_covers_tail hu
    unfold Ext.stop at this
    omega

theorem Gapped.stop_le_of_head {x y : Ext} {xs ys : List Ext}
    (hx : Gapped (x :: xs)) (hs : x.start = y.start)
    (hmem : ∀ u, Covers (y :: ys) u → Covers (x :: xs) u) : y.stop ≤ x.stop := by
  by_contra hlt
  have hxpos := (gapped_cons.mp hx).1
  have hcov : Covers (y :: ys) x.stop := by
    refine (covers_cons _ _ _).mpr (Or.inl ⟨?_, by omega⟩)
    unfold Ext.stop
    omega
  -- the first unit past the head is never covered by a gapped list
  rcases (covers_cons _ _ _).mp (hmem _ hcov) with h | h
  · exact Nat.lt_irrefl _ h.2
  · exact Nat.lt_irrefl _ (hx.lt_of_covers_tail h)

/-- **Canonical form.** Gapped lists covering the same units are equal. -/
theorem Gapped.ext : ∀ {xs ys : List Ext}, Gapped xs → Gapped ys →
    (∀ u, Covers xs u ↔ Covers ys u) → xs = ys
  | [], [], _, _, _ => rfl
  | [], y :: ys, _, hy, hmem => by
      have hpos := (gapped_cons.mp hy).1
      have : Covers (y :: ys) y.start :=
        (covers_cons _ _ _).mpr (Or.inl ⟨Nat.le_refl _, by unfold Ext.stop; omega⟩)
      exact absurd ((hmem _).mpr this) (covers_nil _)
  | x :: xs, [], hx, _, hmem => by
      have hpos := (gapped_cons.mp hx).1
      have : Covers (x :: xs) x.start :=
        (covers_cons _ _ _).mpr (Or.inl ⟨Nat.le_refl _, by unfold Ext.stop; omega⟩)
      exact absurd ((hmem _).mp this) (covers_nil _)
  | x :: xs, y :: ys, hx, hy, hmem => by
      have hxpos := (gapped_cons.mp hx).1
      have hypos := (gapped_cons.mp hy).1
      have hxc : Covers (x :: xs) x.start :=
        (covers_cons _ _ _).mpr (Or.inl ⟨Nat.le_refl _, by unfold Ext.stop; omega⟩)
      have hyc : Covers (y :: ys) y.start :=
        (covers_cons _ _ _).mpr (Or.inl ⟨Nat.le_refl _, by unfold Ext.stop; omega⟩)
      have hs : x.start = y.start := Nat.le_antisymm
        (hx.start_le_of_covers ((hmem _).mpr hyc))
        (hy.start_le_of_covers ((hmem _).mp hxc))
      have he : x.stop = y.stop := Nat.le_antisymm
        (hy.stop_le_of_head hs.symm fun u => (hmem u).mp)
        (hx.stop_le_of_head hs fun u => (hmem u).mpr)
      have hxy : x = y := by
        cases x
        cases y
        simp only [Ext.stop, Ext.mk.injEq] at *
        omega
      subst hxy
      have htails : ∀ u, Covers xs u ↔ Covers ys u := by
        intro u
        constructor
        · intro hu
          have hlt := hx.lt_of_covers_tail hu
          rcases (covers_cons _ _ _).mp
            ((hmem u).mp ((covers_cons _ _ _).mpr (Or.inr hu))) with h | h
          · exact absurd h.2 (by omega)
          · exact h
        · intro hu
          have hlt := hy.lt_of_covers_tail hu
          rcases (covers_cons _ _ _).mp
            ((hmem u).mpr ((covers_cons _ _ _).mpr (Or.inr hu))) with h | h
          · exact absurd h.2 (by omega)
          · exact h
      rw [Gapped.ext (gapped_cons.mp hx).2.2 (gapped_cons.mp hy).2.2 htails]

/-! ## Joining two extents that touch -/

/-- `e` with `f` appended to it. -/
def Ext.join (e f : Ext) : Ext := ⟨e.start, e.len + f.len⟩

section Join

variable {e f : Ext} {fs : List Ext}

theorem Ext.join_stop (htouch : e.stop = f.start) : (e.join f).stop = f.stop := by
  unfold Ext.join Ext.stop at *
  dsimp only
  omega

theorem Ext.has_join (htouch : e.stop = f.start) (u : Nat) :
    (e.join f).Has u ↔ e.Has u ∨ f.Has u := by
  unfold Ext.Has
  rw [Ext.join_stop htouch]
  unfold Ext.join Ext.stop at *
  dsimp only
  omega

theorem Ext.Within.join {lo hi : Nat} (he : e.Within lo hi) (hf : f.Within lo hi)
    (htouch : e.stop = f.start) : (e.join f).Within lo hi := by
  refine ⟨he.1, ?_⟩
  rw [Ext.join_stop htouch]
  exact hf.2

/-- The head of a gapped list may be joined to what touches it in front. -/
theorem Gapped.join (h : Gapped (f :: fs)) (htouch : e.stop = f.start) :
    Gapped (e.join f :: fs) := by
  obtain ⟨hpos, hafter, hfs⟩ := gapped_cons.mp h
  refine gapped_cons.mpr ⟨Nat.lt_of_lt_of_le hpos (Nat.le_add_left _ _), ?_, hfs⟩
  rw [Ext.join_stop htouch]
  exact hafter

end Join

/-! ## Taking an interval out of one extent -/

/-- What is left of `e` without `[a, a + n)`: the fragment before it and the
remainder after it, when non-empty. -/
def cut (e : Ext) (a n : Nat) : List Ext :=
  (if e.start < a then [⟨e.start, a - e.start⟩] else []) ++
    (if a + n < e.stop then [⟨a + n, e.stop - (a + n)⟩] else [])

theorem mem_cut {e f : Ext} {a n : Nat} (h : f ∈ cut e a n) :
    (e.start < a ∧ f = ⟨e.start, a - e.start⟩) ∨
      (a + n < e.stop ∧ f = ⟨a + n, e.stop - (a + n)⟩) := by
  unfold cut at h
  rcases List.mem_append.mp h with h | h
  · split at h
    · rename_i hlt
      exact Or.inl ⟨hlt, List.mem_singleton.mp h⟩
    · simp at h
  · split at h
    · rename_i hlt
      exact Or.inr ⟨hlt, List.mem_singleton.mp h⟩
    · simp at h

section Cut

variable {e : Ext} {a n : Nat}

theorem covers_cut (ha : e.start ≤ a) (hn : a + n ≤ e.stop) (u : Nat) :
    Covers (cut e a n) u ↔ e.Has u ∧ ¬ (Ext.mk a n).Has u := by
  unfold Framework.cut
  split <;> split <;> simp only [covers_append, covers_cons, covers_nil, or_false,
    false_or, false_iff, Ext.Has, Ext.stop] at * <;> omega

theorem total_cut (ha : e.start ≤ a) (hn : a + n ≤ e.stop) :
    total (cut e a n) + n = e.len := by
  unfold Framework.cut
  split <;> split <;> simp only [total_append, total_cons, total_nil, Ext.stop] at * <;>
    omega

theorem gapped_cut_self (hn0 : 0 < n) : Gapped (cut e a n) := by
  refine ⟨?_, ?_⟩
  · intro f hf
    rcases mem_cut hf with ⟨h, rfl⟩ | ⟨h, rfl⟩ <;> simp only <;> omega
  · unfold Framework.cut
    split <;> split <;> simp [Ext.stop]
    omega

theorem mem_cut_within (ha : e.start ≤ a) (hn : a + n ≤ e.stop) {f : Ext}
    (hf : f ∈ cut e a n) : e.start ≤ f.start ∧ f.stop ≤ e.stop := by
  rcases mem_cut hf with ⟨h, rfl⟩ | ⟨h, rfl⟩ <;>
    simp only [Ext.stop] at * <;> omega

theorem Gapped.cut {pre post : List Ext} (h : Gapped (pre ++ e :: post))
    (ha : e.start ≤ a) (hn0 : 0 < n) (hn : a + n ≤ e.stop) :
    Gapped (pre ++ (cut e a n ++ post)) := by
  obtain ⟨hpre, hrest, hcross⟩ := gapped_append.mp h
  obtain ⟨-, hafter, hpost⟩ := gapped_cons.mp hrest
  refine gapped_append.mpr ⟨hpre, gapped_append.mpr
    ⟨gapped_cut_self hn0, hpost, ?_⟩, ?_⟩
  · intro f hf y hy
    have h1 := (mem_cut_within ha hn hf).2
    have h2 := hafter y hy
    omega
  · intro x hx f hf
    rcases List.mem_append.mp hf with hf | hf
    · have h1 := (mem_cut_within ha hn hf).1
      have h2 := hcross x hx e List.mem_cons_self
      omega
    · exact hcross x hx f (List.mem_cons_of_mem _ hf)

theorem Gapped.covers_cut {pre post : List Ext} (h : Gapped (pre ++ e :: post))
    (ha : e.start ≤ a) (hn : a + n ≤ e.stop) (u : Nat) :
    Covers (pre ++ (Framework.cut e a n ++ post)) u ↔
      Covers (pre ++ e :: post) u ∧ ¬ (Ext.mk a n).Has u := by
  obtain ⟨-, hrest, hcross⟩ := gapped_append.mp h
  obtain ⟨-, hafter, -⟩ := gapped_cons.mp hrest
  have hpre : Covers pre u → ¬ (Ext.mk a n).Has u := by
    rintro ⟨x, hx, hxu⟩ hau
    have := hcross x hx e List.mem_cons_self
    simp only [Ext.Has, Ext.stop] at *
    omega
  have hpost : Covers post u → ¬ (Ext.mk a n).Has u := by
    rintro ⟨y, hy, hyu⟩ hau
    have := hafter y hy
    simp only [Ext.Has, Ext.stop] at *
    omega
  simp only [covers_append, covers_cons, Framework.covers_cut ha hn]
  tauto

end Cut

end OsProjects.Framework
