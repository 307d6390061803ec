import Mathlib

/-!
# Locks and the sections they guard

A lock as the program points of the threads show it: who holds it, and which
threads are inside the section between taking the lock and giving it back. A
step of one thread takes the lock and enters, leaves and gives it back, or does
neither (`Step`); or it leaves and keeps the lock (`Leaves`).

- `Exclusive` — who is inside holds the lock; every step keeps it, so sections
  exclude each other (`Exclusive.unique`).
- `Returned` — who holds the lock is inside, on the way to giving it back; every
  step keeps it but one that leaves with the lock.
- `Lost` — the lock is held and nobody is inside; that stays so.
-/

namespace OsProjects.Framework

structure LockView (T : Type) where
  holder : Option T
  inside : T → Bool

namespace LockView

variable {T : Type} {t : T} {v v' : LockView T}

def Exclusive (v : LockView T) : Prop := ∀ t, v.inside t = true → v.holder = some t

def Returned (v : LockView T) : Prop := ∀ t, v.holder = some t → v.inside t = true

/-- What a step of `t` does to the lock, and whether `t` is inside before and
after it. -/
inductive Act (t : T) : Option T → Option T → Bool → Bool → Prop where
  | keep {lock : Option T} {b : Bool} : Act t lock lock b b
  | take : Act t none (some t) false true
  | give {lock : Option T} : Act t lock none true false

/-- A step of `t` that uses the lock as it should. -/
structure Step (t : T) (v v' : LockView T) : Prop where
  act : Act t v.holder v'.holder (v.inside t) (v'.inside t)
  others : ∀ u, u ≠ t → v'.inside u = v.inside u

theorem Step.refl (t : T) (v : LockView T) : Step t v v := ⟨.keep, fun _ _ => rfl⟩

/-- A step of `t` that leaves the section without giving the lock back. -/
structure Leaves (t : T) (v v' : LockView T) : Prop where
  inside : v.inside t = true
  outside : v'.inside t = false
  holder : v'.holder = v.holder
  others : ∀ u, u ≠ t → v'.inside u = v.inside u

/-- **Sections exclude each other.** -/
theorem Exclusive.unique (h : v.Exclusive) {t u : T} (ht : v.inside t = true)
    (hu : v.inside u = true) : t = u :=
  Option.some.inj ((h t ht).symm.trans (h u hu))

theorem Exclusive.step (h : v.Exclusive) (hs : Step t v v') : v'.Exclusive := by
  intro u hu
  obtain ⟨hact, hothers⟩ := hs
  by_cases hut : u = t
  · subst hut
    have hold := h u
    rw [hu] at hact
    generalize v.holder = lock, v'.holder = lock', v.inside u = was at hact hold
    cases hact with
    | keep => exact hold rfl
    | take => rfl
  · have hin : v.inside u = true := (hothers u hut).symm.trans hu
    have hold := h u hin
    have hone := fun ht => hut (h.unique hin ht)
    generalize v.holder = lock, v'.holder = lock', v.inside t = was, v'.inside t = now
      at hact hold hone
    cases hact with
    | keep => exact hold
    | take => cases hold
    | give => exact absurd rfl hone

theorem Exclusive.leaves (h : v.Exclusive) (hl : Leaves t v v') : v'.Exclusive := by
  intro u hu
  have hut : u ≠ t := by
    rintro rfl
    cases hl.outside.symm.trans hu
  rw [hl.holder, h u ((hl.others u hut).symm.trans hu)]

theorem Returned.step (h : v.Returned) (hs : Step t v v') : v'.Returned := by
  intro u hu
  obtain ⟨hact, hothers⟩ := hs
  by_cases hut : u = t
  · subst hut
    have hold := h u
    rw [hu] at hact
    generalize v.holder = lock, v.inside u = was, v'.inside u = now at hact hold ⊢
    cases hact with
    | keep => exact hold rfl
    | take => rfl
  · rw [hothers u hut]
    apply h
    rw [hu] at hact
    generalize v.holder = lock, v.inside t = was, v'.inside t = now at hact ⊢
    cases hact with
    | keep => rfl
    | take => exact absurd rfl hut

/-- The lock stays with a thread that does not give it back. -/
theorem Leaves.not_returned (h : v.Exclusive) (hl : Leaves t v v') : ¬ v'.Returned := by
  intro hret
  have hheld : v'.holder = some t := by rw [hl.holder, h t hl.inside]
  exact Bool.false_ne_true (hl.outside.symm.trans (hret t hheld))

/-- The lock is held and nobody is on the way to giving it back. -/
def Lost (v : LockView T) : Prop := v.holder ≠ none ∧ ∀ t, v.inside t = false

/-- **A lost lock is never found.** -/
theorem Lost.step (h : v.Lost) (hs : Step t v v') : v'.Lost ∧ v'.holder = v.holder := by
  obtain ⟨hact, hothers⟩ := hs
  obtain ⟨hheld, hnobody⟩ := h
  have hkeep : v'.holder = v.holder ∧ v'.inside t = false := by
    rw [hnobody t] at hact
    generalize v.holder = lock, v'.holder = lock', v'.inside t = now at hact hheld ⊢
    cases hact with
    | keep => exact ⟨rfl, rfl⟩
    | take => exact absurd rfl hheld
  refine ⟨⟨?_, fun u => ?_⟩, hkeep.1⟩
  · rw [hkeep.1]
    exact hheld
  · by_cases hut : u = t
    · rw [hut]
      exact hkeep.2
    · rw [hothers u hut]
      exact hnobody u

theorem Leaves.lost (h : v.Exclusive) (hl : Leaves t v v') : v'.Lost := by
  constructor
  · rw [hl.holder, h t hl.inside]
    exact Option.some_ne_none t
  · intro u
    by_cases hut : u = t
    · rw [hut]
      exact hl.outside
    · rw [hl.others u hut]
      by_contra hin
      exact hut (h.unique (Bool.eq_true_of_not_eq_false hin) hl.inside)

end LockView

end OsProjects.Framework
