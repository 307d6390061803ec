import OsProjects.Framework.Machine
import Mathlib.Algebra.BigOperators.Group.Finset.Basic
import Mathlib.Tactic.Ring

/-!
# Potentials

How long can a run be? If every step costs at least one unit of a potential, apart from
steps that gain some, a run is no longer than the potential it starts with and what it gains
on the way.
-/

namespace OsProjects.Framework.Machine

universe u v

variable {σ : Type u} {α : Type v} (M : Machine σ α)

/-- What `f` adds up to along a run. -/
def total (f : σ → α → Nat) : σ → List α → Nat
  | _, [] => 0
  | s, a :: as =>
      match M.next s a with
      | none => 0
      | some s' => f s a + total f s' as

variable {M}

theorem total_cons {f : σ → α → Nat} {s t : σ} {a : α} {as : List α}
    (hn : M.next s a = some t) : M.total f s (a :: as) = f s a + M.total f t as := by
  rw [total, hn]

theorem length_le_of_potential {Inv : σ → Prop} {pot : σ → Nat} {gain : σ → α → Nat}
    (hinv : ∀ s a s', Inv s → M.next s a = some s' → Inv s')
    (hstep : ∀ s a s', Inv s → M.next s a = some s' → pot s' + 1 ≤ pot s + gain s a)
    {as : List α} {s s' : σ} (hI : Inv s) (h : M.replay s as = some s') :
    as.length + pot s' ≤ pot s + M.total gain s as := by
  induction as generalizing s with
  | nil =>
      obtain rfl := Option.some.inj h
      exact (Nat.zero_add _).le
  | cons a as ih =>
      obtain ⟨t, hn, ht⟩ := replay_cons h
      have hone := hstep s a t hI hn
      have hrest := ih (hinv s a t hI hn) ht
      rw [total_cons hn, List.length_cons]
      omega

/-- Gains of two kinds. -/
theorem total_linear {f g : σ → α → Nat} (m n : Nat) {as : List α} {s : σ} :
    M.total (fun s a => m * f s a + n * g s a) s as = m * M.total f s as + n * M.total g s as := by
  induction as generalizing s with
  | nil => rfl
  | cons a as ih =>
      cases hn : M.next s a with
      | none => simp only [total, hn, Nat.mul_zero, Nat.add_zero]
      | some t =>
          rw [total_cons hn, total_cons hn, total_cons hn, ih]
          ring

/-- Gains of many kinds. -/
theorem total_sum {ι : Type*} [Fintype ι] {f : ι → σ → α → Nat} {as : List α} {s : σ} :
    M.total (fun s a => ∑ i, f i s a) s as = ∑ i, M.total (f i) s as := by
  induction as generalizing s with
  | nil => simp only [total, Finset.sum_const_zero]
  | cons a as ih =>
      cases hn : M.next s a with
      | none => simp only [total, hn, Finset.sum_const_zero]
      | some t =>
          rw [total_cons hn, ih, ← Finset.sum_add_distrib]
          exact Finset.sum_congr rfl fun i _ => (total_cons hn).symm

end OsProjects.Framework.Machine
