import Mathlib

/-!
# Labelled machines, their runs and their reachable states

A machine is a partial step function over labels. All nondeterminism (which
thread moves, which value is drawn, which address the environment hands out)
lives in the label, so a run is just a list of labels and can be replayed by
evaluation.

- `Reach`/`ReachVia` — states reached by any run, or by a run whose steps all
  meet a condition on (state before the step, label); `ReachVia.invariant` is
  the one induction every safety result goes through.
- `Along`/`StepsMeet` — a state predicate at every state of one run, and a step
  condition at every step of it; `along_iff_stepsMeet` lifts a one-step
  characterisation to whole runs.
-/

namespace OsProjects.Framework

universe u v

/-- A labelled machine: its initial states and its partial step function. -/
structure Machine (σ : Type u) (α : Type v) where
  init : σ → Prop
  next : σ → α → Option σ

namespace Machine

variable {σ : Type u} {α : Type v} (M : Machine σ α)

/-- The state after a list of labels, if every one of them was enabled. -/
def replay : σ → List α → Option σ
  | s, [] => some s
  | s, a :: as =>
      match M.next s a with
      | none => none
      | some s' => replay s' as

/-- States reached by steps that all meet `ok`, a condition on the state
before the step and its label. -/
inductive ReachVia (ok : σ → α → Prop) : σ → Prop where
  | init {s : σ} : M.init s → ReachVia ok s
  | step {s s' : σ} {a : α} :
      ReachVia ok s → ok s a → M.next s a = some s' → ReachVia ok s'

/-- States reached by any run at all. -/
abbrev Reach : σ → Prop := M.ReachVia fun _ _ => True

variable {M}

/-- **The invariant rule.** Holding initially and being kept by every step
that meets the condition is enough. -/
theorem ReachVia.invariant {ok : σ → α → Prop} {Inv : σ → Prop}
    (hinit : ∀ s, M.init s → Inv s)
    (hstep : ∀ s a s', Inv s → ok s a → M.next s a = some s' → Inv s')
    {s : σ} (h : M.ReachVia ok s) : Inv s := by
  induction h with
  | init h0 => exact hinit _ h0
  | step _ hok hn ih => exact hstep _ _ _ ih hok hn

theorem replay_cons {s s' : σ} {a : α} {as : List α}
    (h : M.replay s (a :: as) = some s') :
    ∃ t, M.next s a = some t ∧ M.replay t as = some s' := by
  rw [replay] at h
  cases hn : M.next s a with
  | none => rw [hn] at h; simp at h
  | some t => rw [hn] at h; exact ⟨t, rfl, h⟩

theorem replay_of_next {s t : σ} {a : α} {as : List α} (hn : M.next s a = some t) :
    M.replay s (a :: as) = M.replay t as := by
  rw [replay, hn]

variable (M)

/-- `P` at every state the labels pass through, both ends included. -/
def Along (P : σ → Prop) : σ → List α → Prop
  | s, [] => P s
  | s, a :: as => P s ∧ ∀ s', M.next s a = some s' → Along P s' as

/-- `ok` at every step the labels take. -/
def StepsMeet (ok : σ → α → Prop) : σ → List α → Prop
  | _, [] => True
  | s, a :: as => ok s a ∧ ∀ s', M.next s a = some s' → StepsMeet ok s' as

variable {M}

/-- Replaying labels from a reached state reaches the state they end in. -/
theorem ReachVia.replay {ok : σ → α → Prop} {s' : σ} : ∀ {as : List α} {s : σ},
    M.ReachVia ok s → M.StepsMeet ok s as → M.replay s as = some s' → M.ReachVia ok s'
  | [], s, hs, _, h => by
      rw [Machine.replay, Option.some.injEq] at h
      exact h ▸ hs
  | a :: as, s, hs, hmeet, h => by
      obtain ⟨t, hn, ht⟩ := replay_cons h
      exact ReachVia.replay (hs.step hmeet.1 hn) (hmeet.2 t hn) ht

theorem stepsMeet_true : ∀ (as : List α) (s : σ), M.StepsMeet (fun _ _ => True) s as
  | [], _ => trivial
  | _ :: as, _ => ⟨trivial, fun s' _ => stepsMeet_true as s'⟩

theorem Reach.replay {s s' : σ} {as : List α} (hs : M.Reach s)
    (h : M.replay s as = some s') : M.Reach s' :=
  ReachVia.replay hs (stepsMeet_true as s) h

/-- Whether the steps of a given run meet the condition can be evaluated. -/
instance StepsMeet.decidable {ok : σ → α → Prop} [∀ s a, Decidable (ok s a)] :
    ∀ (s : σ) (as : List α), Decidable (M.StepsMeet ok s as)
  | _, [] => .isTrue trivial
  | s, a :: as =>
      match hn : M.next s a with
      | none => decidable_of_iff (ok s a)
          ⟨fun h => ⟨h, fun _ hs => nomatch hn.symm.trans hs⟩, And.left⟩
      | some t =>
          have : Decidable (M.StepsMeet ok t as) := StepsMeet.decidable t as
          decidable_of_iff (ok s a ∧ M.StepsMeet ok t as)
            ⟨fun h => ⟨h.1, fun _ hs => Option.some.inj (hn.symm.trans hs) ▸ h.2⟩,
              fun h => ⟨h.1, h.2 t hn⟩⟩

theorem Along.head {P : σ → Prop} {s : σ} : ∀ {as : List α},
    M.Along P s as → P s
  | [], h => h
  | _ :: _, h => h.1

/-- A condition that implies another wherever an invariant holds. -/
theorem StepsMeet.imp {Inv : σ → Prop} {ok ok' : σ → α → Prop}
    (hinv : ∀ s a s', Inv s → M.next s a = some s' → Inv s')
    (himp : ∀ s a, Inv s → ok s a → ok' s a) {as : List α} {s : σ} (hI : Inv s)
    (h : M.StepsMeet ok s as) : M.StepsMeet ok' s as := by
  induction as generalizing s with
  | nil => trivial
  | cons a as ih =>
      obtain ⟨hok, hrest⟩ := h
      exact ⟨himp s a hI hok, fun s' hn => ih (hinv s a s' hI hn) (hrest s' hn)⟩

/-- The invariant rule, for the states of one run. -/
theorem StepsMeet.along {Inv : σ → Prop} {ok : σ → α → Prop}
    (hstep : ∀ s a s', Inv s → ok s a → M.next s a = some s' → Inv s')
    {as : List α} {s : σ} (hI : Inv s) (h : M.StepsMeet ok s as) : M.Along Inv s as := by
  induction as generalizing s with
  | nil => exact hI
  | cons a as ih =>
      obtain ⟨hok, hrest⟩ := h
      exact ⟨hI, fun s' hn => ih (hstep s a s' hI hok hn) (hrest s' hn)⟩

theorem Along.imp {P Q : σ → Prop} (himp : ∀ s, P s → Q s) {as : List α} {s : σ}
    (h : M.Along P s as) : M.Along Q s as := by
  induction as generalizing s with
  | nil => exact himp s h
  | cons a as ih => exact ⟨himp s h.1, fun s' hn => ih (h.2 s' hn)⟩

/-- **Exact conditions lift to runs**, of labels that are `good`. If a step from
a state with `P` leads to one with `Q` exactly when it meets `ok`, and then to one
with `P`, a run stays within `Q` exactly when each of its steps meets `ok`. `P` is
what `Q` is strengthened to, `Inv` whatever else every step keeps. -/
theorem along_iff_stepsMeet_of {Inv P Q : σ → Prop} {ok : σ → α → Prop} {good : α → Prop}
    (hinv : ∀ s a s', good a → Inv s → M.next s a = some s' → Inv s')
    (hP : ∀ s, P s → Q s)
    (hexact : ∀ s a s', good a → Inv s → P s → M.next s a = some s' →
      (Q s' ↔ ok s a) ∧ (ok s a → P s'))
    {s' : σ} {as : List α} {s : σ} (hgood : ∀ a ∈ as, good a) (hI : Inv s) (hPs : P s)
    (h : M.replay s as = some s') : M.Along Q s as ↔ M.StepsMeet ok s as := by
  induction as generalizing s with
  | nil => simp only [Along, StepsMeet, hP s hPs]
  | cons a as ih =>
      obtain ⟨t, hn, ht⟩ := replay_cons h
      have ha : good a := hgood a List.mem_cons_self
      obtain ⟨hone, hnext⟩ := hexact s a t ha hI hPs hn
      have hrest : P t → (M.Along Q t as ↔ M.StepsMeet ok t as) := fun hPt =>
        ih (fun b hb => hgood b (List.mem_cons_of_mem a hb)) (hinv s a t ha hI hn) hPt ht
      have hdet : ∀ u, M.next s a = some u → u = t := fun u hu =>
        Option.some.inj (hu.symm.trans hn)
      constructor
      · rintro ⟨-, hall⟩
        have hok : ok s a := hone.mp (hall t hn).head
        refine ⟨hok, fun u hu => ?_⟩
        rw [hdet u hu]
        exact (hrest (hnext hok)).mp (hall t hn)
      · rintro ⟨hok, hall⟩
        refine ⟨hP s hPs, fun u hu => ?_⟩
        rw [hdet u hu]
        exact (hrest (hnext hok)).mpr (hall t hn)

/-- The same for one property and all labels. -/
theorem along_iff_stepsMeet {Inv P : σ → Prop} {ok : σ → α → Prop}
    (hinv : ∀ s a s', Inv s → M.next s a = some s' → Inv s')
    (hexact : ∀ s a s', Inv s → P s → M.next s a = some s' →
      (P s' ↔ ok s a)) {s' : σ} {as : List α} {s : σ} (hI : Inv s) (hPs : P s)
    (h : M.replay s as = some s') : M.Along P s as ↔ M.StepsMeet ok s as :=
  @along_iff_stepsMeet_of _ _ M Inv P P ok (fun _ => True) (fun s a s' _ => hinv s a s')
    (fun _ => id)
    (fun s a s' _ hI hPs hn => ⟨hexact s a s' hI hPs hn, (hexact s a s' hI hPs hn).mpr⟩)
    s' as s (fun _ _ => trivial) hI hPs h

section Late

variable {P Q D fin : σ → Prop} {ok : σ → α → Prop}

/-- A run from a doomed state does not stay within `Q`, unless it stops too early. -/
theorem not_along_of_doomed
    (hdoomed : ∀ s a s', D s → M.next s a = some s' → ¬ Q s' ∨ D s')
    (hfin : ∀ s, D s → ¬ fin s) {s s' : σ} {as : List α} (hD : D s)
    (h : M.replay s as = some s') (hend : fin s') : ¬ M.Along Q s as := by
  induction as generalizing s with
  | nil =>
      obtain rfl := Option.some.inj h
      exact absurd hend (hfin s hD)
  | cons a as ih =>
      obtain ⟨t, hn, ht⟩ := replay_cons h
      rintro ⟨-, hall⟩
      rcases hdoomed s a t hD hn with hnot | hD'
      · exact hnot (hall t hn).head
      · exact ih hD' ht (hall t hn)

/-- **Conditions whose failure shows later.** A step from a state with `P` keeps `P` if
it meets `ok`; if not, it leaves `Q` or leads to a doomed state, from which `Q` is
left before the run is finished. -/
theorem along_iff_stepsMeet_late (hP : ∀ s, P s → Q s)
    (hkeep : ∀ s a s', P s → ok s a → M.next s a = some s' → P s')
    (hfail : ∀ s a s', P s → ¬ ok s a → M.next s a = some s' → ¬ Q s' ∨ D s')
    (hdoomed : ∀ s a s', D s → M.next s a = some s' → ¬ Q s' ∨ D s')
    (hfin : ∀ s, D s → ¬ fin s) {s s' : σ} {as : List α} (hPs : P s)
    (h : M.replay s as = some s') :
    (M.StepsMeet ok s as → M.Along Q s as) ∧
      (fin s' → M.Along Q s as → M.StepsMeet ok s as) := by
  refine ⟨fun hmeet => (StepsMeet.along hkeep hPs hmeet).imp hP, fun hend => ?_⟩
  induction as generalizing s with
  | nil => exact fun _ => trivial
  | cons a as ih =>
      obtain ⟨t, hn, ht⟩ := replay_cons h
      rintro ⟨-, hall⟩
      have hQ := hall t hn
      have hok : ok s a := by
        by_contra hnot
        rcases hfail s a t hPs hnot hn with hleft | hD
        · exact hleft hQ.head
        · exact not_along_of_doomed hdoomed hfin hD ht hend hQ
      refine ⟨hok, fun u hu => ?_⟩
      obtain rfl := Option.some.inj (hn.symm.trans hu)
      exact ih (hkeep s a t hPs hok hn) ht hQ

/-- **A run keeps `P`, or is doomed** from the first step that does not meet `ok`. -/
theorem kept_or_doomed (hkeep : ∀ s a s', P s → ok s a → M.next s a = some s' → P s')
    (hfail : ∀ s a s', P s → ¬ ok s a → M.next s a = some s' → D s')
    (hdoomed : ∀ s a s', D s → M.next s a = some s' → D s') {s s' : σ} {as : List α} (hPs : P s)
    (h : M.replay s as = some s') :
    (M.StepsMeet ok s as ∧ P s') ∨ (¬ M.StepsMeet ok s as ∧ D s') := by
  have hrest : ∀ {as : List α} {t : σ}, D t → M.replay t as = some s' → D s' := by
    intro as
    induction as with
    | nil => exact fun hD ht => Option.some.inj ht ▸ hD
    | cons a as ih =>
        intro t hD ht
        obtain ⟨u, hn, hu⟩ := replay_cons ht
        exact ih (hdoomed t a u hD hn) hu
  induction as generalizing s with
  | nil =>
      obtain rfl := Option.some.inj h
      exact .inl ⟨trivial, hPs⟩
  | cons a as ih =>
      obtain ⟨t, hn, ht⟩ := replay_cons h
      by_cases hok : ok s a
      · rcases ih (hkeep s a t hPs hok hn) ht with ⟨hmeet, hend⟩ | ⟨hnot, hend⟩
        · refine .inl ⟨⟨hok, fun u hu => ?_⟩, hend⟩
          obtain rfl := Option.some.inj (hn.symm.trans hu)
          exact hmeet
        · exact .inr ⟨fun hmeet => hnot (hmeet.2 t hn), hend⟩
      · exact .inr ⟨fun hmeet => hok hmeet.1, hrest (hfail s a t hPs hok hn) ht⟩

end Late

end Machine

end OsProjects.Framework
