import OsProjects.Philosophers.Permits

/-!
# Monitors and wait sets

What holds in every run about the `synchronized` methods: the monitor of a
chopstick is held by exactly the thread that is inside one of them
(`MonitorOk`); what a thread has read of `mainuser` and `clean` there is still
true (`SeenOk`); and a thread in the wait set waits for a clean chopstick, or
is about to be notified (`WaitOk`).
-/

namespace OsProjects.Philosophers

open Framework

/-! ## How other threads are left -/

/-- Threads other than the one that moves stay where they are, or leave the
wait set of the chopstick in question. -/
theorem other_cases {s s' : Table} {p q : Seat}
    (hother : s'.pc q =
      if (s.pc p).notifies then woken (s.focus p) q (s.pc q) else s.pc q) :
    s'.pc q = s.pc q ∨
      ∃ sd, s.pc q = .grab sd .waiting ∧ s'.pc q = .grab sd .reenter := by
  rw [hother]
  split
  · unfold woken
    split
    · split
      · exact Or.inr ⟨_, ‹_›, rfl⟩
      · exact Or.inl rfl
    · exact Or.inl rfl
  · exact Or.inl rfl

/-- Either the chopstick is the one the step is about, or it is as before. -/
theorem stick_cases {s s' : Table} {p : Seat} {k : Chopstick}
    (hstick : s'.stick = Function.update s.stick (s.focus p) k) (c : Seat) :
    (c = s.focus p ∧ s'.stick c = k) ∨ (c ≠ s.focus p ∧ s'.stick c = s.stick c) := by
  rw [hstick]
  by_cases hc : c = s.focus p
  · exact Or.inl ⟨hc, by rw [hc, Function.update_self]⟩
  · exact Or.inr ⟨hc, Function.update_of_ne hc _ _⟩

/-! ## Holding a monitor -/

/-- The thread is inside a `synchronized` method of its chopstick on the given
side, and not in its wait set. -/
def inMonitor : Pc → Side → Bool
  | .grab _ .enter, _ => false
  | .grab _ .waiting, _ => false
  | .grab _ .reenter, _ => false
  | .grab sd' _, sd => sd' = sd
  | .put _ .enter, _ => false
  | .put sd' _, sd => sd' = sd
  | _, _ => false

def MonitorOk (s : Table) : Prop :=
  ∀ c q, (s.stick c).monitor = some q ↔
    ∃ sd, stickOf q sd = c ∧ inMonitor (s.pc q) sd = true

theorem inMonitor_side {x : Pc} {sd : Side} (h : inMonitor x sd = true) : x.side = sd := by
  cases x with
  | grab sd' a => cases a <;> simp_all [inMonitor, Pc.side]
  | put sd' a => cases a <;> simp_all [inMonitor, Pc.side]
  | _ => cases h

/-- **Monitors are entered when free and left from inside.** -/
theorem moves_monitor {p : Seat} {k k' : Chopstick} {x x' : Pc} (h : Moves p k x k' x')
    (hin : k.monitor = some p ↔ inMonitor x x.side = true) :
    (k'.monitor = some p ↔ inMonitor x' x.side = true) ∧
      (∀ q, q ≠ p → (k'.monitor = some q ↔ k.monitor = some q)) ∧
      ∀ sd, sd ≠ x.side → inMonitor x' sd = false := by
  cases h with
  | grabEnter sd hfree | grabReenter sd hfree | putEnter sd hfree =>
      refine ⟨by simp [inMonitor, Pc.side], fun q hq => ?_, fun sd' hsd => ?_⟩
      · simp [hfree, hq.symm]
      · exact decide_eq_false hsd.symm
  | grabExit sd | putExit sd =>
      have hself : k.monitor = some p := hin.mpr (by simp [inMonitor, Pc.side])
      refine ⟨?_, fun q hq => ?_, fun sd' _ => ?_⟩
      · cases sd <;> simp [inMonitor, afterGrab, afterPut]
      · simp [hself, hq.symm]
      · cases sd <;> rfl
  | grabWait sd =>
      have hself : k.monitor = some p := hin.mpr (by simp [inMonitor, Pc.side])
      refine ⟨by simp [inMonitor], fun q hq => ?_, fun sd' _ => rfl⟩
      simp [hself, hq.symm]
  | think | acqRight | acqLeft | eating | relRight | relLeft =>
      exact ⟨hin, fun q _ => Iff.rfl, fun sd' _ => rfl⟩
  | _ =>
      refine ⟨hin, fun q _ => Iff.rfl, fun sd' hsd => ?_⟩
      exact decide_eq_false hsd.symm

theorem monitorOk_setup : MonitorOk setup := by
  intro c q
  constructor
  · nofun
  · rintro ⟨sd, -, h⟩
    cases h

theorem MonitorOk.focus {s : Table} (hok : MonitorOk s) (p : Seat) :
    (s.stick (s.focus p)).monitor = some p ↔ inMonitor (s.pc p) (s.pc p).side = true := by
  rw [hok]
  constructor
  · rintro ⟨sd, -, h⟩
    rw [inMonitor_side h]
    exact h
  · exact fun h => ⟨_, rfl, h⟩

theorem monitorOk_next {s s' : Table} {a : Label} (hok : MonitorOk s)
    (hn : next s a = some s') : MonitorOk s' := by
  cases a with
  | wake p =>
      obtain ⟨sd, hold, hstick, hnew, hother⟩ := wake_cases hn
      intro c q
      rw [hstick, hok]
      by_cases hq : q = p
      · rw [hq, hnew, hold]
        rfl
      · rw [hother q hq]
  | step p =>
      obtain ⟨k, x, hm, hstick, hpc, hother⟩ := step_cases hn
      obtain ⟨hself, hothers, hsides⟩ := moves_monitor hm (hok.focus p)
      intro c q
      by_cases hq : q = p
      · subst hq
        rw [hpc]
        rcases stick_cases hstick c with ⟨rfl, hc⟩ | ⟨hne, hc⟩
        · rw [hc, hself]
          constructor
          · exact fun h => ⟨_, rfl, h⟩
          · rintro ⟨sd, hsd, h⟩
            rw [stickOf_inj hsd] at h
            exact h
        · -- not the chopstick of this step: neither before nor after it
          rw [hc, hok]
          refine iff_of_false ?_ ?_
          · rintro ⟨sd, rfl, h⟩
            rw [Table.focus, inMonitor_side h] at hne
            exact hne rfl
          · rintro ⟨sd, rfl, h⟩
            rw [hsides sd (fun heq => hne (by rw [heq]; rfl))] at h
            cases h
      · have hsame : ∀ sd, inMonitor (s'.pc q) sd = inMonitor (s.pc q) sd := by
          intro sd
          rcases other_cases (hother q hq) with heq | ⟨sd', h1, h2⟩
          · rw [heq]
          · rw [h1, h2]
            rfl
        simp only [hsame]
        rcases stick_cases hstick c with ⟨rfl, hc⟩ | ⟨-, hc⟩
        · rw [hc, hothers q hq]
          exact hok _ q
        · rw [hc]
          exact hok c q

/-- At most one thread is inside. -/
theorem MonitorOk.unique {s : Table} (hok : MonitorOk s) {p q : Seat} {sd sd' : Side}
    (hp : inMonitor (s.pc p) sd = true) (hq : inMonitor (s.pc q) sd' = true)
    (hc : stickOf p sd = stickOf q sd') : p = q := by
  have h1 := (hok (stickOf p sd) p).mpr ⟨sd, rfl, hp⟩
  have h2 := (hok (stickOf p sd) q).mpr ⟨sd', hc.symm, hq⟩
  rw [h1] at h2
  exact Option.some.inj h2

/-- While one thread is inside, another one with the same chopstick is not. -/
theorem MonitorOk.outside {s : Table} (hok : MonitorOk s) {p q : Seat} (hq : q ≠ p)
    (hf : s.focus q = s.focus p) (hp : inMonitor (s.pc p) (s.pc p).side = true) :
    inMonitor (s.pc q) (s.pc q).side = false := by
  by_contra hin
  exact hq (hok.unique (Bool.eq_true_of_not_eq_false hin) hp hf)

/-! ## What a thread has seen -/

/-- What the thread's next step in `grabChopstick` relies on: the loop test
saw another owner, and the `if` read `clean`. -/
def Seen (p : Seat) (k : Chopstick) : Pc → Prop
  | .grab _ .look => k.mainuser ≠ p
  | .grab _ .acquire => k.mainuser ≠ p ∧ k.clean = false
  | .grab _ .take => k.mainuser ≠ p ∧ k.clean = false
  | .grab _ .wait => k.mainuser ≠ p ∧ k.clean = true
  | .grab _ .waiting => k.mainuser ≠ p
  | .grab _ .reenter => k.mainuser ≠ p
  | _ => True

def SeenOk (s : Table) : Prop := ∀ p, Seen p (s.stick (s.focus p)) (s.pc p)

/-- **Only two steps write** the fields `mainuser` and `clean`. -/
theorem moves_fields {p : Seat} {k k' : Chopstick} {x x' : Pc} (h : Moves p k x k' x') :
    (k'.mainuser = k.mainuser ∧ k'.clean = k.clean) ∨
    (∃ sd, x = .grab sd .take ∧ x' = .grab sd .release ∧
      k'.mainuser = p ∧ k'.clean = true) ∨
    ∃ sd, x = .put sd .clean ∧ x' = .put sd .notify ∧
      k'.mainuser = k.mainuser ∧ k'.clean = false := by
  cases h with
  | grabTake sd => exact Or.inr (Or.inl ⟨sd, rfl, rfl, rfl, rfl⟩)
  | putClean sd => exact Or.inr (Or.inr ⟨sd, rfl, rfl, rfl, rfl⟩)
  | _ => exact Or.inl ⟨rfl, rfl⟩

/-- The thread's own step: it stays with the chopstick it has looked at, or
forgets what it saw. -/
theorem moves_seen {p : Seat} {k k' : Chopstick} {x x' : Pc} (h : Moves p k x k' x')
    (hseen : Seen p k x) : (x'.side = x.side ∧ Seen p k' x') ∨ ∀ k'', Seen p k'' x' := by
  cases h with
  | grabOther sd hother => exact Or.inl ⟨rfl, hother⟩
  | grabClean sd hclean => exact Or.inl ⟨rfl, hseen, hclean⟩
  | grabDirty sd hdirty => exact Or.inl ⟨rfl, hseen, hdirty⟩
  | grabAcquire sd _ => exact Or.inl ⟨rfl, hseen⟩
  | grabWait sd => exact Or.inl ⟨rfl, hseen.1⟩
  | grabExit sd | putExit sd => cases sd <;> exact Or.inr fun _ => trivial
  | _ => exact Or.inr fun _ => trivial

theorem seen_congr {p : Seat} {k k' : Chopstick} {x : Pc} (hseen : Seen p k x)
    (hm : k'.mainuser = k.mainuser) (hc : k'.clean = k.clean) : Seen p k' x := by
  unfold Seen at hseen ⊢
  rw [hm, hc]
  exact hseen

/-- A thread outside the monitor only relies on not being the owner. -/
theorem seen_outside {p : Seat} {k k' : Chopstick} {x : Pc} (hseen : Seen p k x)
    (hout : inMonitor x x.side = false) (hm : k.mainuser ≠ p → k'.mainuser ≠ p) :
    Seen p k' x := by
  cases x with
  | grab sd a =>
      cases a with
      | waiting | reenter => exact hm hseen
      | enter => trivial
      | _ => simp [inMonitor, Pc.side] at hout
  | _ => trivial

theorem seenOk_setup : SeenOk setup := fun _ => trivial

/-- The chopstick a thread is about, seen from another thread's step. -/
theorem focus_other {s s' : Table} {q : Seat}
    (h : s'.pc q = s.pc q ∨
      ∃ sd, s.pc q = .grab sd .waiting ∧ s'.pc q = .grab sd .reenter) :
    s'.focus q = s.focus q := by
  unfold Table.focus
  rcases h with heq | ⟨sd, h1, h2⟩
  · rw [heq]
  · rw [h1, h2]
    rfl

theorem seenOk_next {s s' : Table} {a : Label} (hmon : MonitorOk s) (hok : SeenOk s)
    (hn : next s a = some s') : SeenOk s' := by
  cases a with
  | wake p =>
      obtain ⟨sd, hold, hstick, hnew, hother⟩ := wake_cases hn
      intro q
      by_cases hq : q = p
      · have hseen := hok q
        rw [Table.focus, hq, hold] at hseen
        rw [Table.focus, hq, hstick, hnew]
        exact hseen
      · rw [Table.focus, hstick, hother q hq]
        exact hok q
  | step p =>
      obtain ⟨k, x, hm, hstick, hpc, hother⟩ := step_cases hn
      intro q
      by_cases hq : q = p
      · subst hq
        rw [Table.focus, hpc]
        rcases moves_seen hm (hok q) with ⟨hside, hseen⟩ | hseen
        · rw [hside, hstick]
          rw [show stickOf q (s.pc q).side = s.focus q from rfl, Function.update_self]
          exact hseen
        · exact hseen _
      · -- another thread: what it saw may change only while it is outside
        have hcases := other_cases (hother q hq)
        have hkept : Seen q (s'.stick (s.focus q)) (s.pc q) := by
          rcases stick_cases hstick (s.focus q) with ⟨hf, hc⟩ | ⟨-, hc⟩
          · rw [hc]
            have hseen := hok q
            rw [hf] at hseen
            rcases moves_fields hm with ⟨h1, h2⟩ | ⟨sd, h1, -, h2, -⟩ | ⟨sd, h1, -, h2, -⟩
            · exact seen_congr hseen h1 h2
            · have hin : inMonitor (s.pc p) (s.pc p).side = true := by
                rw [h1]
                exact decide_eq_true rfl
              refine seen_outside hseen (hmon.outside hq hf hin) fun _ => ?_
              rw [h2]
              exact fun h => hq h.symm
            · have hin : inMonitor (s.pc p) (s.pc p).side = true := by
                rw [h1]
                exact decide_eq_true rfl
              refine seen_outside hseen (hmon.outside hq hf hin) fun h => ?_
              rw [h2]
              exact h
          · rw [hc]
            exact hok q
        rw [focus_other hcases]
        rcases hcases with heq | ⟨sd, h1, h2⟩
        · rw [heq]
          exact hkept
        · rw [h1] at hkept
          rw [h2]
          exact hkept

/-! ## Waiting threads -/

/-- Some thread is about to call `notifyAll` on chopstick `c`. -/
def Notifying (s : Table) (c : Seat) : Prop :=
  ∃ r sd, stickOf r sd = c ∧ s.pc r = .put sd .notify

/-- No wake-up is lost. -/
def WaitOk (s : Table) : Prop :=
  ∀ q sd, s.pc q = .grab sd .waiting →
    (s.stick (stickOf q sd)).clean = true ∨ Notifying s (stickOf q sd)

theorem waitOk_setup : WaitOk setup := by
  intro q sd h
  cases h

/-- A thread that is still waiting was not notified by this step. -/
theorem still_waiting {s s' : Table} {p q : Seat} {sd : Side}
    (hother : s'.pc q =
      if (s.pc p).notifies then woken (s.focus p) q (s.pc q) else s.pc q)
    (hw : s'.pc q = .grab sd .waiting) :
    s.pc q = .grab sd .waiting ∧
      ¬ ((s.pc p).notifies = true ∧ stickOf q sd = s.focus p) := by
  have hold : s.pc q = .grab sd .waiting := by
    rcases other_cases hother with heq | ⟨sd', -, h2⟩
    · rw [← heq]
      exact hw
    · rw [h2] at hw
      cases hw
  refine ⟨hold, ?_⟩
  rintro ⟨hnot, hf⟩
  rw [hnot, if_pos rfl, hold, woken, if_pos hf] at hother
  rw [hother] at hw
  cases hw

theorem moves_waiting {p : Seat} {k k' : Chopstick} {x : Pc} {sd : Side}
    (h : Moves p k x k' (.grab sd .waiting)) :
    x = .grab sd .wait ∧ k'.clean = k.clean := by
  generalize hy : Pc.grab sd .waiting = y at h
  cases h with
  | grabWait sd' =>
      cases hy
      exact ⟨rfl, rfl⟩
  | grabExit sd' | putExit sd' => cases sd' <;> cases hy
  | _ => cases hy

theorem waitOk_next {s s' : Table} {a : Label} (hseen : SeenOk s) (hok : WaitOk s)
    (hn : next s a = some s') : WaitOk s' := by
  cases a with
  | wake p =>
      obtain ⟨sd, hold, hstick, hnew, hother⟩ := wake_cases hn
      intro q sd' hw
      have hq : q ≠ p := by
        rintro rfl
        rw [hnew] at hw
        cases hw
      rw [hother q hq] at hw
      rw [hstick]
      rcases hok q sd' hw with hclean | ⟨r, sd'', hr, hnot⟩
      · exact Or.inl hclean
      · refine Or.inr ⟨r, sd'', hr, ?_⟩
        have hrp : r ≠ p := by
          rintro rfl
          rw [hold] at hnot
          cases hnot
        rw [hother r hrp]
        exact hnot
  | step p =>
      obtain ⟨k, x, hm, hstick, hpc, hother⟩ := step_cases hn
      intro q sd hw
      by_cases hq : q = p
      · -- it has just gone to sleep, having read `clean`
        subst hq
        rw [hpc] at hw
        subst hw
        obtain ⟨hx, hclean⟩ := moves_waiting hm
        have hsaw := hseen q
        have hf : s.focus q = stickOf q sd := by rw [Table.focus, hx]; rfl
        rw [hx] at hsaw
        left
        rw [hstick, ← hf, Function.update_self, hclean]
        exact hsaw.2
      · obtain ⟨hold, hnotified⟩ := still_waiting (hother q hq) hw
        rcases hok q sd hold with hclean | ⟨r, sd', hr, hnot⟩
        · rcases stick_cases hstick (stickOf q sd) with ⟨hf, hc⟩ | ⟨-, hc⟩
          · rw [hc]
            rcases moves_fields hm with ⟨-, h2⟩ | ⟨sd', -, -, -, h2⟩ | ⟨sd', h1, h2, -, -⟩
            · left
              rw [h2, ← hf]
              exact hclean
            · exact Or.inl h2
            · -- `clean = false` is followed by `notifyAll`
              refine Or.inr ⟨p, sd', ?_, by rw [hpc, h2]⟩
              rw [hf, Table.focus, h1]
              rfl
          · rw [hc]
            exact Or.inl hclean
        · right
          have hrp : r ≠ p := by
            rintro rfl
            refine hnotified ⟨by rw [hnot]; rfl, ?_⟩
            rw [Table.focus, hnot, ← hr]
            rfl
          refine ⟨r, sd', hr, ?_⟩
          rcases other_cases (hother r hrp) with heq | ⟨sd'', h1, -⟩
          · rw [heq]
            exact hnot
          · rw [hnot] at h1
            cases h1

/-! ## All runs -/

/-- What every reachable state has. -/
structure MonitorsOk (s : Table) : Prop where
  monitor : MonitorOk s
  seen : SeenOk s
  wait : WaitOk s

theorem monitorsOk_setup : MonitorsOk setup :=
  ⟨monitorOk_setup, seenOk_setup, waitOk_setup⟩

theorem MonitorsOk.next {s s' : Table} {a : Label} (hok : MonitorsOk s)
    (hn : next s a = some s') : MonitorsOk s' :=
  ⟨monitorOk_next hok.monitor hn, seenOk_next hok.monitor hok.seen hn,
    waitOk_next hok.seen hok.wait hn⟩

end OsProjects.Philosophers
