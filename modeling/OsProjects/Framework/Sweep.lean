import Mathlib

/-!
# Lists that turn at most once

A list over a linear order sweeps once if it is a monotone run followed by a
monotone run the other way. Where it turns is of no interest to a proof; what it
must not have are three elements, in order, with the middle one on top (`Peak`)
together with three with the middle one at the bottom (`Dip`). Both notions pass
to sublists, so taking elements out never adds a turn.
-/

namespace OsProjects.Framework

variable {α : Type}

/-- Of three elements of two runs, the first two or the last two are of one run. -/
theorem pairwise_of_sublist_append {R S : α → α → Prop} {as bs : List α} {a b c : α}
    (has : as.Pairwise R) (hbs : bs.Pairwise S) (h : [a, b, c].Sublist (as ++ bs)) :
    R a b ∨ S b c := by
  obtain ⟨l₁, l₂, heq, h₁, h₂⟩ := List.sublist_append_iff.mp h
  rcases l₁ with _ | ⟨x, _ | ⟨y, l₁⟩⟩
  · right
    rw [List.nil_append] at heq
    rw [← heq] at h₂
    have hbc : [b, c].Sublist bs := (List.sublist_cons_self a [b, c]).trans h₂
    exact List.rel_of_pairwise_cons (hbs.sublist hbc) List.mem_cons_self
  · right
    obtain ⟨rfl, rfl⟩ := List.cons.inj heq
    exact List.rel_of_pairwise_cons (hbs.sublist h₂) List.mem_cons_self
  · left
    obtain ⟨rfl, htail⟩ := List.cons.inj heq
    obtain ⟨rfl, -⟩ := List.cons.inj htail
    exact List.rel_of_pairwise_cons (has.sublist h₁) List.mem_cons_self

variable [LinearOrder α] {qs rs : List α}

/-- One monotone run, and at most one run the other way after it. -/
def OneSweep (qs : List α) : Prop :=
  ∃ as bs, qs = as ++ bs ∧ ((as.Pairwise (· ≥ ·) ∧ bs.Pairwise (· ≤ ·)) ∨
    (as.Pairwise (· ≤ ·) ∧ bs.Pairwise (· ≥ ·)))

def Peak (qs : List α) : Prop := ∃ a b c, [a, b, c].Sublist qs ∧ a < b ∧ c < b

def Dip (qs : List α) : Prop := ∃ a b c, [a, b, c].Sublist qs ∧ b < a ∧ b < c

theorem Peak.mono (h : Peak qs) (hsub : qs.Sublist rs) : Peak rs := by
  obtain ⟨a, b, c, habc, hab, hcb⟩ := h
  exact ⟨a, b, c, habc.trans hsub, hab, hcb⟩

/-- **A single sweep has no peak or no dip.** -/
theorem OneSweep.not_peak_and_dip (h : OneSweep qs) : ¬ (Peak qs ∧ Dip qs) := by
  rintro ⟨⟨a, b, c, habc, hab, hcb⟩, ⟨d, e, f, hdef, hed, hef⟩⟩
  obtain ⟨as, bs, rfl, ⟨has, hbs⟩ | ⟨has, hbs⟩⟩ := h
  · rcases pairwise_of_sublist_append has hbs habc with h | h
    · exact absurd hab (not_lt.mpr h)
    · exact absurd hcb (not_lt.mpr h)
  · rcases pairwise_of_sublist_append has hbs hdef with h | h
    · exact absurd hed (not_lt.mpr h)
    · exact absurd hef (not_lt.mpr h)

/-- **Without a peak it goes down and then up.** -/
theorem oneSweep_of_not_peak (h : ¬ Peak qs) : OneSweep qs := by
  suffices hvalley : ∃ as bs, qs = as ++ bs ∧ as.Pairwise (· ≥ ·) ∧ bs.Pairwise (· ≤ ·) by
    obtain ⟨as, bs, heq, hdown, hup⟩ := hvalley
    exact ⟨as, bs, heq, .inl ⟨hdown, hup⟩⟩
  induction qs with
  | nil => exact ⟨[], [], rfl, .nil, .nil⟩
  | cons x xs ih =>
      obtain ⟨as, bs, rfl, hdown, hup⟩ := ih fun hp => h (hp.mono (List.sublist_cons_self x xs))
      by_cases hx : ∀ y ∈ as, y ≤ x
      · exact ⟨x :: as, bs, rfl, List.pairwise_cons.mpr ⟨hx, hdown⟩, hup⟩
      · push Not at hx
        obtain ⟨y, hy, hxy⟩ := hx
        cases as with
        | nil => cases hy
        | cons z as =>
            rw [List.pairwise_cons] at hdown
            have hxz : x < z := by
              rcases List.mem_cons.mp hy with rfl | hy
              · exact hxy
              · exact hxy.trans_le (hdown.1 y hy)
            -- after `x < z` nothing may go below `z` again
            have hlow : ∀ c ∈ as ++ bs, z ≤ c := by
              intro c hc
              by_contra hcz
              refine h ⟨x, z, c, ?_, hxz, not_le.mp hcz⟩
              exact ((List.singleton_sublist.mpr hc).cons_cons z).cons_cons x
            have hconst : ∀ c ∈ as, c = z := fun c hc =>
              le_antisymm (hdown.1 c hc) (hlow c (List.mem_append_left bs hc))
            refine ⟨[], x :: (z :: as ++ bs), rfl, .nil, ?_⟩
            refine List.pairwise_cons.mpr ⟨?_, List.pairwise_cons.mpr ⟨hlow, ?_⟩⟩
            · intro c hc
              rcases List.mem_cons.mp hc with rfl | hc
              · exact hxz.le
              · exact hxz.le.trans (hlow c hc)
            · refine List.pairwise_append.mpr ⟨?_, hup, ?_⟩
              · refine hdown.2.imp_of_mem fun {a b} ha hb _ => ?_
                rw [hconst a ha, hconst b hb]
              · intro a ha b hb
                rw [hconst a ha]
                exact hlow b (List.mem_append_right as hb)

/-- **Peaks of a list with an element put in**: old ones, and those with the new
element at the left, on top or at the right. -/
theorem peak_insert_iff {x : α} {as bs : List α} :
    Peak (as ++ x :: bs) ↔ Peak (as ++ bs) ∨
      (∃ b c, [b, c].Sublist bs ∧ x < b ∧ c < b) ∨
      (∃ a ∈ as, ∃ c ∈ bs, a < x ∧ c < x) ∨
      ∃ a b, [a, b].Sublist as ∧ a < b ∧ x < b := by
  constructor
  · rintro ⟨a, b, c, h, hab, hcb⟩
    obtain ⟨l₁, l₂, heq, h₁, h₂⟩ := List.sublist_append_iff.mp h
    rcases List.sublist_cons_iff.mp h₂ with hr | ⟨r, rfl, hr⟩
    · left
      refine ⟨a, b, c, ?_, hab, hcb⟩
      rw [heq]
      exact h₁.append hr
    · right
      rcases l₁ with _ | ⟨y, _ | ⟨z, l₁⟩⟩
      · obtain ⟨rfl, rfl⟩ := List.cons.inj heq
        exact .inl ⟨b, c, hr, hab, hcb⟩
      · obtain ⟨rfl, htail⟩ := List.cons.inj heq
        obtain ⟨rfl, rfl⟩ := List.cons.inj htail
        have ha := List.singleton_sublist.mp h₁
        have hc := List.singleton_sublist.mp hr
        exact .inr (.inl ⟨a, ha, c, hc, hab, hcb⟩)
      · obtain ⟨rfl, htail⟩ := List.cons.inj heq
        obtain ⟨rfl, hend⟩ := List.cons.inj htail
        rcases l₁ with _ | ⟨w, l₁⟩
        · obtain ⟨rfl, -⟩ := List.cons.inj hend
          exact .inr (.inr ⟨a, b, h₁, hab, hcb⟩)
        · simp at hend
  · rintro (h | ⟨b, c, hbc, hxb, hcb⟩ | ⟨a, ha, c, hc, hax, hcx⟩ | ⟨a, b, hsub, hab, hxb⟩)
    · exact h.mono ((List.sublist_cons_self x bs).append_left as)
    · exact ⟨x, b, c, (hbc.cons_cons x).trans (List.sublist_append_right as _), hxb, hcb⟩
    · refine ⟨a, x, c, ?_, hax, hcx⟩
      exact (List.singleton_sublist.mpr ha).append ((List.singleton_sublist.mpr hc).cons_cons x)
    · refine ⟨a, b, x, ?_, hab, hxb⟩
      exact hsub.append (List.singleton_sublist.mpr List.mem_cons_self)

end OsProjects.Framework
