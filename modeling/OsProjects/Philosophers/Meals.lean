import OsProjects.Framework.Potential
import OsProjects.Philosophers.Circles

/-!
# Meals keep coming

The threads may wait for each other, try again and wake each other up, but not for ever
without a meal. How far a thread is from the end of its next `eat()` goes down with each of
its steps; only `notifyAll` sets another thread back, by as much as it is worth in the count
itself. So a run of a given length has had a certain number of meals, apart from the
wake-ups for no reason, whoever took which step (`meals_keep_coming`).

With `deadlock_iff` that is all that can happen: the table deadlocks in one of two ways, or
somebody eats again.
-/

namespace OsProjects.Philosophers

open Framework

/-! ## How far it is to the end of a meal -/

/-- Within `grabChopstick`; `own` says whether the chopstick is the thread's own by now. -/
def Grab.toGo (own : Bool) : Grab → Nat
  | .enter => 8
  | .reenter => 8
  | .test => if own then 2 else 7
  | .look => 6
  | .wait => 5
  | .waiting => 4
  | .acquire => 5
  | .take => 4
  | .release => if own then 3 else 8
  | .exit => 1

/-- Within `setChopstick`. `notifyAll` sets another thread back from `waiting` to `reenter`. -/
def Put.toGo : Put → Nat
  | .enter => 8
  | .clean => 7
  | .notify => 6
  | .exit => 1

/-- Steps to the end of `eat()`, with a reserve for those woken up on the way. -/
def Pc.toGo (own : Bool) : Pc → Nat
  | .relLeft => 0
  | .relRight => 1
  | .eating => 2
  | .acqLeft => 3
  | .acqRight => 4
  | .grab .left a => 4 + a.toGo own
  | .grab .right a => 12 + a.toGo own
  | .think => 21
  | .put .left a => 21 + a.toGo
  | .put .right a => 29 + a.toGo

/-- A step of `p` at `k` pays for itself and for whom it wakes up; a meal starts anew. -/
theorem moves_toGo {p : Seat} {k k' : Chopstick} {x x' : Pc} (h : Moves p k x k' x') :
    x'.toGo (decide (k'.mainuser = p)) + 1 + (if x.notifies then 4 else 0) ≤
      x.toGo (decide (k.mainuser = p)) + if x = .relLeft then 38 else 0 := by
  cases h with
  | grabOwn sd hown => cases sd <;> simp [Pc.toGo, Grab.toGo, Pc.notifies, hown]
  | grabOther sd hother => cases sd <;> simp [Pc.toGo, Grab.toGo, Pc.notifies, hother]
  | grabRelease sd =>
      cases sd <;> by_cases hown : k.mainuser = p <;>
        simp [Pc.toGo, Grab.toGo, Pc.notifies, hown]
  | grabEnter sd _ | grabReenter sd _ =>
      cases sd <;> by_cases hown : k.mainuser = p <;>
        simp [Pc.toGo, Grab.toGo, Pc.notifies, hown]
  | grabClean sd _ | grabDirty sd _ | grabAcquire sd _ | grabTake sd | grabWait sd
  | grabExit sd =>
      cases sd <;> simp [Pc.toGo, Grab.toGo, Pc.notifies, afterGrab]
  | putEnter sd _ | putClean sd | putNotify sd | putExit sd =>
      cases sd <;> simp [Pc.toGo, Put.toGo, Pc.notifies, afterPut]
  | think | acqRight _ | acqLeft _ | eating | relRight | relLeft =>
      simp [Pc.toGo, Put.toGo, Grab.toGo, Pc.notifies]

/-- Whose the chopstick is matters inside the monitor only. -/
theorem toGo_outside {x : Pc} (hout : inMonitor x x.side = false) (own own' : Bool) :
    x.toGo own = x.toGo own' := by
  cases x with
  | grab sd a =>
      cases a with
      | test | release => simp [inMonitor, Pc.side] at hout
      | _ => cases sd <;> rfl
  | put sd a => cases sd <;> rfl
  | _ => rfl

/-- After a step to another chopstick it does not matter. -/
theorem moves_side {p : Seat} {k k' : Chopstick} {x x' : Pc} (h : Moves p k x k' x') :
    x'.side = x.side ∨ inMonitor x' x'.side = false := by
  cases h with
  | grabExit sd | putExit sd => cases sd <;> exact Or.inr rfl
  | think | acqRight _ | eating | relRight | relLeft | acqLeft _ => exact Or.inr rfl
  | _ => exact Or.inl rfl

def Table.toGo (s : Table) (p : Seat) : Nat :=
  (s.pc p).toGo (decide ((s.stick (s.focus p)).mainuser = p))

/-- The one who shares the chopstick on side `sd` of `p`. -/
def mate (p : Seat) : Side → Seat
  | .right => p + 4
  | .left => p + 1

theorem eq_mate {p q : Seat} {sd sd' : Side} (hne : q ≠ p) (h : stickOf q sd' = stickOf p sd) :
    q = mate p sd := by
  rcases shared_sides hne h with ⟨-, rfl, hq⟩ | ⟨-, rfl, hp⟩
  · exact hq
  · exact (add_four_eq.mpr hp).symm

section Step

variable {s s' : Table} {p : Seat}

/-- The thread that moves. -/
theorem toGo_self (hn : next s (.step p) = some s') :
    s'.toGo p + 1 + (if (s.pc p).notifies then 4 else 0) ≤
      s.toGo p + if s.pc p = .relLeft then 38 else 0 := by
  obtain ⟨k, x, hm, hstick, hpc, -⟩ := step_cases hn
  have hown : s'.toGo p = x.toGo (decide (k.mainuser = p)) := by
    rw [Table.toGo, hpc]
    rcases moves_side hm with hside | hout
    · have hf : s'.focus p = s.focus p := by rw [Table.focus, hpc, hside]; rfl
      rw [hf, hstick, Function.update_self]
    · exact toGo_outside hout _ _
  rw [hown]
  exact moves_toGo hm

/-- Another thread: only one that is woken up is set back. -/
theorem toGo_other (hok : MonitorsOk s) (hn : next s (.step p) = some s') {q : Seat}
    (hq : q ≠ p) :
    s'.toGo q ≤ s.toGo q +
      if (s.pc p).notifies = true ∧ q = mate p (s.pc p).side then 4 else 0 := by
  obtain ⟨k, x, hm, hstick, -, hother⟩ := step_cases hn
  have hcases := other_cases (hother q hq)
  have hfocus := focus_other hcases
  rcases hcases with heq | ⟨sd, h1, h2⟩
  · refine Nat.le_add_right_of_le (le_of_eq ?_)
    rw [Table.toGo, Table.toGo, heq, hfocus]
    rcases stick_cases hstick (s.focus q) with ⟨hf, hc⟩ | ⟨-, hc⟩
    · rw [hc]
      rcases moves_fields hm with ⟨h1, -⟩ | ⟨sd, h1, -⟩ | ⟨sd, -, -, h1, -⟩
      · rw [h1, hf]
      · -- a chopstick changes hands while its other user is outside
        have hin : inMonitor (s.pc p) (s.pc p).side = true := by
          rw [h1]
          exact decide_eq_true rfl
        exact toGo_outside (hok.monitor.outside hq hf hin) _ _
      · rw [h1, hf]
    · rw [hc]
  · have hwoken : (s.pc p).notifies = true ∧ q = mate p (s.pc p).side := by
      have hnot : (s.pc p).notifies = true := by
        by_contra hnot
        have := hother q hq
        rw [if_neg hnot, h1, h2] at this
        cases this
      refine ⟨hnot, ?_⟩
      have hto := hother q hq
      rw [if_pos hnot, h1, h2, woken] at hto
      split at hto
      · rename_i hf
        exact eq_mate hq hf
      · cases hto
    rw [if_pos hwoken, Table.toGo, Table.toGo, h1, h2]
    cases sd <;> exact Nat.le_refl _

end Step

/-! ## The whole table -/

def Table.allToGo (s : Table) : Nat := ∑ p, s.toGo p

/-- The last step of `eat()`. -/
def ate (s : Table) : Label → Nat
  | .step p => if s.pc p = .relLeft then 1 else 0
  | .wake _ => 0

def awoke (_ : Table) : Label → Nat
  | .step _ => 0
  | .wake _ => 1

def meals (s : Table) (as : List Label) : Nat := machine.total ate s as

/-- Wake-ups for no reason. -/
def wakeUps (s : Table) (as : List Label) : Nat := machine.total awoke s as

section Table

variable {s s' : Table}

theorem allToGo_step {p : Seat} (hok : MonitorsOk s) (hn : next s (.step p) = some s') :
    s'.allToGo + 1 ≤ s.allToGo + if s.pc p = .relLeft then 38 else 0 := by
  have hself := toGo_self hn
  have hothers : ∑ q ∈ Finset.univ.erase p, s'.toGo q ≤
      ∑ q ∈ Finset.univ.erase p, (s.toGo q +
        if (s.pc p).notifies = true ∧ q = mate p (s.pc p).side then 4 else 0) :=
    Finset.sum_le_sum fun q hq => toGo_other hok hn (Finset.ne_of_mem_erase hq)
  -- one thread at most is woken up
  have hwoken : ∑ q ∈ Finset.univ.erase p,
      (if (s.pc p).notifies = true ∧ q = mate p (s.pc p).side then 4 else 0) ≤
        if (s.pc p).notifies then 4 else 0 := by
    by_cases hnot : (s.pc p).notifies = true
    · simp only [hnot, true_and, if_true]
      rw [Finset.sum_ite_eq']
      split <;> omega
    · simp [hnot]
  rw [Finset.sum_add_distrib] at hothers
  have hsum : s.allToGo = s.toGo p + ∑ q ∈ Finset.univ.erase p, s.toGo q :=
    (Finset.add_sum_erase _ _ (Finset.mem_univ p)).symm
  have hsum' : s'.allToGo = s'.toGo p + ∑ q ∈ Finset.univ.erase p, s'.toGo q :=
    (Finset.add_sum_erase _ _ (Finset.mem_univ p)).symm
  omega

theorem allToGo_wake {p : Seat} (hn : next s (.wake p) = some s') :
    s'.allToGo + 1 ≤ s.allToGo + 5 := by
  obtain ⟨sd, hold, hstick, hnew, hother⟩ := wake_cases hn
  have hself : s'.toGo p = s.toGo p + 4 := by
    rw [Table.toGo, Table.toGo, hold, hnew]
    cases sd <;> rfl
  have hothers : ∑ q ∈ Finset.univ.erase p, s'.toGo q = ∑ q ∈ Finset.univ.erase p, s.toGo q := by
    refine Finset.sum_congr rfl fun q hq => ?_
    have hpc := hother q (Finset.ne_of_mem_erase hq)
    rw [Table.toGo, Table.toGo, Table.focus, Table.focus, hpc, hstick]
  have hsum : s.allToGo = s.toGo p + ∑ q ∈ Finset.univ.erase p, s.toGo q :=
    (Finset.add_sum_erase _ _ (Finset.mem_univ p)).symm
  have hsum' : s'.allToGo = s'.toGo p + ∑ q ∈ Finset.univ.erase p, s'.toGo q :=
    (Finset.add_sum_erase _ _ (Finset.mem_univ p)).symm
  omega

theorem allToGo_next {a : Label} (hok : MonitorsOk s) (hn : next s a = some s') :
    s'.allToGo + 1 ≤ s.allToGo + (38 * ate s a + 5 * awoke s a) := by
  cases a with
  | step p =>
      have hstep := allToGo_step hok hn
      rw [ate, awoke]
      split <;> simp_all
  | wake p => exact allToGo_wake hn

theorem toGo_le (p : Seat) : s.toGo p ≤ 37 := by
  have hgrab : ∀ (a : Grab) (own : Bool), a.toGo own ≤ 8 := by
    intro a own
    cases a <;> cases own <;> decide
  have hput : ∀ a : Put, a.toGo ≤ 8 := by
    intro a
    cases a <;> decide
  rw [Table.toGo]
  generalize decide ((s.stick (s.focus p)).mainuser = p) = own
  cases s.pc p with
  | grab sd a =>
      have hle := hgrab a own
      cases sd <;> simp only [Pc.toGo] <;> omega
  | put sd a =>
      have hle := hput a
      cases sd <;> simp only [Pc.toGo] <;> omega
  | _ => simp [Pc.toGo]

theorem allToGo_le : s.allToGo ≤ 185 :=
  calc s.allToGo ≤ ∑ _p : Seat, 37 := Finset.sum_le_sum fun p _ => toGo_le p
    _ = 185 := by simp

end Table

/-- The run lemma. -/
theorem length_le_allToGo {s s' : Table} {as : List Label} (hmon : MonitorsOk s)
    (hrun : machine.replay s as = some s') :
    as.length ≤ s.allToGo + (38 * meals s as + 5 * wakeUps s as) := by
  have hlen := @Machine.length_le_of_potential _ _ machine MonitorsOk Table.allToGo
    (fun s a => 38 * ate s a + 5 * awoke s a) (fun _ _ _ hok hn => hok.next hn)
    (fun _ _ _ hok hn => allToGo_next hok hn) as s s' hmon hrun
  rw [Machine.total_linear] at hlen
  exact (Nat.le_add_right _ _).trans hlen

/-! ## Result -/

/-- **Meals keep coming.** From any state that the threads can get to, a run of whatever
steps is no longer than its meals and its wake-ups for no reason account for: of 186 steps
in a row one is the end of a meal, if nobody is woken up for no reason in between. -/
theorem meals_keep_coming {s s' : Table} {as : List Label} (hs : machine.Reach s)
    (hrun : machine.replay s as = some s') :
    as.length ≤ 185 + 38 * meals s as + 5 * wakeUps s as := by
  have hlen := length_le_allToGo (reach_dinersOk hs).monitors hrun
  have hle : s.allToGo ≤ 185 := allToGo_le
  omega

/-- The first philosopher sits down and eats; the last one is next. -/
theorem meals_keep_coming_first : ∃ s', machine.replay setup (steps 0 12 ++ steps 4 1) = some s' ∧
    meals setup (steps 0 12 ++ steps 4 1) = 1 ∧
    (steps 0 12 ++ steps 4 1).length ≤ 185 + 38 * meals setup (steps 0 12 ++ steps 4 1) +
      5 * wakeUps setup (steps 0 12 ++ steps 4 1) := by
  have hrun : (machine.replay setup (steps 0 12 ++ steps 4 1)).isSome = true := by
    decide +kernel
  obtain ⟨s', hs'⟩ := Option.isSome_iff_exists.mp hrun
  exact ⟨s', hs', by decide +kernel, meals_keep_coming (.init rfl) hs'⟩

end OsProjects.Philosophers
