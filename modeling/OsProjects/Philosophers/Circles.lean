import OsProjects.Philosophers.Deadlock

/-!
# All deadlocks

The runs of `Deadlock` avoid the shortcut of `grabChopstick`; here are all runs. The
permits, the monitors and the owners are in order in any of them (`DinersOk`), and that
leaves two deadlocks: all five philosophers wait for the semaphore of their left chopstick,
or all five are in the wait set of its monitor (`deadlock_iff`). Both happen. In the second
one a thread may still wake up for no reason, and finds the chopstick clean and not its
own: nobody eats again (`deadlock_forever`).
-/

namespace OsProjects.Philosophers

open Framework

/-- What every state of every run has. -/
structure DinersOk (s : Table) : Prop where
  permits : PermitsOk s
  monitors : MonitorsOk s
  owner : OwnerOk s

theorem DinersOk.next {s s' : Table} {a : Label} (hok : DinersOk s) (hn : next s a = some s') :
    DinersOk s' :=
  ⟨permitsOk_next hok.permits hn, hok.monitors.next hn,
    ownerOk_next hok.monitors.seen hok.owner hn⟩

theorem reach_dinersOk {s : Table} (hs : machine.Reach s) : DinersOk s := by
  refine @Machine.ReachVia.invariant _ _ _ _ DinersOk ?_ ?_ s hs
  · intro s h0
    rw [show s = setup from h0]
    exact ⟨permitsOk_setup, monitorsOk_setup, ownerOk_setup⟩
  · exact fun s a s' hok _ hn => hok.next hn

/-- A property that passes from neighbour to neighbour goes around the table. -/
theorem round_table {P : Seat → Prop} {p : Seat} (hp : P p) (hstep : ∀ q, P q → P (q + 1))
    (q : Seat) : P q := by
  obtain ⟨k, hk⟩ : ∃ k : Fin 5, q = (· + 1)^[k] p := by
    clear hp hstep
    revert p q
    decide
  rw [hk]
  exact Function.Iterate.rec P hp hstep k

/-! ## Nobody moves

Everybody is blocked, or thinks. Those who think may go on at any time; they are here for
the sake of those who wait until they do. -/

section AllBlocked

variable {s : Table} (hok : DinersOk s)
  (hall : ∀ p, Blocked (s.stick (s.focus p)) (s.pc p) ∨ s.pc p = .think)

include hok hall

/-- A semaphore without permits is held by the philosopher on whose right it is. -/
theorem held_at_acqLeft {c : Seat} (h0 : (s.stick c).permits = 0) : s.pc c = .acqLeft := by
  have hholds : ∀ q sd, holds (s.pc q) sd = true → s.pc q = .acqLeft ∧ sd = .right := by
    intro q sd hh
    rcases hall q with hb | hthink
    · exact holds_of_blocked hb hh
    · rw [hthink] at hh
      cases hh
  have hsum := hok.permits.sum c
  have hleft : holds (s.pc (c + 4)) .left = false := by
    by_contra hh
    cases (hholds _ _ (Bool.eq_true_of_not_eq_false hh)).2
  have hright : holds (s.pc c) .right = true := by
    by_contra hh
    rw [h0, hleft, Bool.eq_false_of_not_eq_true hh] at hsum
    cases hsum
  exact (hholds c _ hright).1

/-- Who is blocked inside a monitor wants the semaphore of its left chopstick. -/
theorem monitor_holder {c q : Seat} (hmon : (s.stick c).monitor = some q) :
    s.pc q = .grab .left .acquire ∧ c = q + 1 ∧ (s.stick c).permits = 0 := by
  obtain ⟨sd, hc, hin⟩ := (hok.monitors.monitor c q).mp hmon
  rcases hall q with hb | hthink
  · have hside := inMonitor_side hin
    rw [Table.focus, hside, hc] at hb
    generalize hx : s.pc q = x at hb hin hside
    cases hb with
    | grabAcquire sd' h0 =>
        obtain rfl : sd' = sd := hside
        cases sd' with
        | left => exact ⟨rfl, hc.symm, h0⟩
        | right =>
            have hheld := held_at_acqLeft hok hall h0
            rw [← show q = c from hc, hx] at hheld
            cases hheld
    | _ => cases hin
  · rw [hthink] at hin
    cases hin

/-- A monitor is free for everybody else. -/
theorem not_shut_out {p : Seat} {x : Pc} (hx : s.pc p = x) (hacq : x ≠ .grab .left .acquire)
    (hleft : x ≠ .acqLeft) : (s.stick (s.focus p)).monitor = none := by
  cases hmon : (s.stick (s.focus p)).monitor with
  | none => rfl
  | some q =>
      obtain ⟨hq, hc, h0⟩ := monitor_holder hok hall hmon
      have hheld := held_at_acqLeft hok hall h0
      cases hside : (s.pc p).side with
      | right =>
          -- it would hold the semaphore itself
          rw [Table.focus, hside, stickOf_right, hx] at hheld
          exact absurd hheld hleft
      | left =>
          rw [Table.focus, hside, stickOf_left] at hc
          rw [← seat_succ_inj hc, hx] at hq
          exact absurd hq hacq

/-- Nobody is about to notify, so the one who waits missed nothing. -/
theorem waits_for_clean {p : Seat} {sd : Side} (hp : s.pc p = .grab sd .waiting) :
    (s.stick (stickOf p sd)).clean = true := by
  rcases hok.monitors.wait p sd hp with h | ⟨r, sd', -, hr⟩
  · exact h
  · rcases hall r with hb | hthink
    · rw [hr] at hb
      cases hb
    · cases hr.symm.trans hthink

/-- A clean chopstick that is waited for belongs to the philosopher on whose right it is. -/
theorem waits_left {p : Seat} {sd : Side} (hp : s.pc p = .grab sd .waiting) : sd = .left := by
  have hclean := waits_for_clean hok hall hp
  have hnot := hok.monitors.seen p
  have hf : s.focus p = stickOf p sd := by rw [Table.focus, hp]; rfl
  rw [hp, hf] at hnot
  obtain ⟨sd', hsd, heng⟩ := hok.owner (stickOf p sd)
  cases sd with
  | left => rfl
  | right =>
      rw [stickOf_right] at *
      -- the owner is the neighbour on the other side, and at its second `acq`
      have hsd' : sd' = .left := by
        cases sd' with
        | left => rfl
        | right => exact absurd hsd hnot
      subst hsd'
      have hengaged := heng hclean
      rcases hall (s.stick p).mainuser with hb | hthink
      · generalize hx : s.pc (s.stick p).mainuser = x at hb hengaged
        have hfocus : s.focus (s.stick p).mainuser = stickOf (s.stick p).mainuser x.side := by
          rw [Table.focus, hx]
        rw [hfocus] at hb
        cases hb with
        | acqLeft h0 =>
            rw [show stickOf (s.stick p).mainuser Pc.acqLeft.side = p from hsd] at h0
            cases hp.symm.trans (held_at_acqLeft hok hall h0)
        | acqRight h0 =>
            have hheld := held_at_acqLeft hok hall h0
            rw [show stickOf (s.stick p).mainuser Pc.acqRight.side = (s.stick p).mainuser from
              rfl, hx] at hheld
            cases hheld
        | putEnter sd' h =>
            refine absurd ?_ h
            have hfree := not_shut_out hok hall hx (by rintro ⟨⟩) (by rintro ⟨⟩)
            rw [hfocus] at hfree
            exact hfree
        | waiting sd' =>
            rcases hengaged with h | h
            · cases sd' <;> cases h
            · cases h
        | grabEnter sd' _ | grabAcquire sd' _ | grabReenter sd' _ =>
            rcases hengaged with h | h
            · cases sd' <;> cases h
            · cases h
      · rw [hthink] at hengaged
        rcases hengaged with h | h
        · cases h
        · cases h

/-- What is left. -/
theorem blocked_left (p : Seat) :
    (s.pc p = .acqLeft ∨ s.pc p = .grab .left .acquire) ∧ (s.stick (p + 1)).permits = 0 ∨
      s.pc p = .grab .left .waiting ∨ s.pc p = .think := by
  rcases hall p with hb | hthink
  · generalize hx : s.pc p = x at hb
    have hfocus : s.focus p = stickOf p x.side := by rw [Table.focus, hx]
    cases hb with
    | waiting sd =>
        rw [waits_left hok hall hx]
        exact Or.inr (Or.inl rfl)
    | acqLeft h0 =>
        rw [hfocus] at h0
        exact Or.inl ⟨Or.inl rfl, h0⟩
    | acqRight h0 =>
        rw [hfocus] at h0
        cases hx.symm.trans (held_at_acqLeft hok hall h0)
    | grabAcquire sd h0 =>
        rw [hfocus] at h0
        cases sd with
        | left => exact Or.inl ⟨Or.inr rfl, h0⟩
        | right => cases hx.symm.trans (held_at_acqLeft hok hall h0)
    | grabEnter sd h | grabReenter sd h | putEnter sd h =>
        exact absurd (not_shut_out hok hall hx (by rintro ⟨⟩) (by rintro ⟨⟩)) h
  · exact Or.inr (Or.inr hthink)

/-- One who waits for a semaphore waits for a neighbour who does so, too. -/
theorem all_acqLeft {p : Seat} (h0 : (s.stick (p + 1)).permits = 0) (q : Seat) :
    s.pc q = .acqLeft := by
  have hall' : ∀ q, s.pc q = .acqLeft ∧ (s.stick (q + 1)).permits = 0 := by
    have hnext : ∀ {q}, (s.stick q).permits = 0 →
        s.pc q = .acqLeft ∧ (s.stick (q + 1)).permits = 0 := by
      intro q h
      have hheld := held_at_acqLeft hok hall h
      refine ⟨hheld, ?_⟩
      rcases blocked_left hok hall q with ⟨-, h⟩ | h | h
      · exact h
      · cases hheld.symm.trans h
      · cases hheld.symm.trans h
    exact round_table (hnext h0) fun q h => hnext h.2
  exact (hall' q).1

theorem all_alike : (∀ p, s.pc p = .acqLeft) ∨
    ∀ p, s.pc p = .grab .left .waiting ∨ s.pc p = .think := by
  by_cases h : ∃ p, (s.stick (p + 1)).permits = 0
  · obtain ⟨p, h0⟩ := h
    exact Or.inl (all_acqLeft hok hall h0)
  · refine Or.inr fun p => ?_
    rcases blocked_left hok hall p with ⟨-, h0⟩ | hp
    · exact absurd ⟨p, h0⟩ h
    · exact hp

end AllBlocked

/-- Nobody thinks, either. -/
theorem all_blocked_alike {s : Table} (hok : DinersOk s)
    (hall : ∀ p, Blocked (s.stick (s.focus p)) (s.pc p)) :
    (∀ p, s.pc p = .acqLeft) ∨ ∀ p, s.pc p = .grab .left .waiting := by
  refine (all_alike hok fun p => Or.inl (hall p)).imp_right fun h p => ?_
  refine (h p).resolve_right fun hthink => ?_
  have hb := hall p
  rw [hthink] at hb
  cases hb

/-- Everybody at the second `acq` has taken the only permit of the right chopstick. -/
theorem permits_of_all_acqLeft {s : Table} (hok : PermitsOk s) (h : ∀ p, s.pc p = .acqLeft)
    (c : Seat) : (s.stick c).permits = 0 := by
  have hsum := hok.sum c
  rw [h, h] at hsum
  exact Nat.succ.inj hsum

theorem next_acqLeft {s : Table} {p : Seat} (hp : s.pc p = .acqLeft)
    (h0 : (s.stick (p + 1)).permits = 0) (a : Label) (ha : a = .step p ∨ a = .wake p) :
    next s a = none := by
  rcases ha with rfl | rfl
  · have hf : s.focus p = p + 1 := by rw [Table.focus, hp]; rfl
    simp only [next, hf, hp]
    rw [act, Chopstick.acquire, if_pos h0]
  · simp only [next, hp]

theorem next_waiting {s : Table} {p : Seat} {sd : Side} (hp : s.pc p = .grab sd .waiting) :
    next s (.step p) = none := by
  simp only [next, hp]
  rfl

/-! ## Awake for no reason -/

/-- The loop of `grabChopstick`, as one goes around it who neither owns the chopstick nor
finds it dirty. -/
def Grab.idle : Grab → Bool
  | .waiting | .reenter | .test | .look | .wait => true
  | _ => false

/-- `p` is in that loop at its left chopstick, which is somebody else's and clean. -/
structure Stranded (s : Table) (p : Seat) : Prop where
  loop : ∃ a : Grab, a.idle = true ∧ s.pc p = .grab .left a
  other : (s.stick (p + 1)).mainuser ≠ p
  clean : (s.stick (p + 1)).clean = true

/-- What a philosopher that only goes around the loop does not change. -/
def SameFields (s s' : Table) : Prop :=
  ∀ c, (s'.stick c).mainuser = (s.stick c).mainuser ∧ (s'.stick c).clean = (s.stick c).clean ∧
    (s'.stick c).permits = (s.stick c).permits

theorem stranded_of_waiting {s : Table} {p : Seat} (hok : DinersOk s)
    (hall : ∀ p, Blocked (s.stick (s.focus p)) (s.pc p)) (hp : s.pc p = .grab .left .waiting) :
    Stranded s p := by
  have hnot := hok.monitors.seen p
  have hf : s.focus p = p + 1 := by rw [Table.focus, hp]; rfl
  rw [hp, hf] at hnot
  exact ⟨⟨.waiting, rfl, hp⟩, hnot, waits_for_clean hok (fun q => Or.inl (hall q)) hp⟩

theorem moves_idle {p : Seat} {k k' : Chopstick} {a : Grab} {x' : Pc}
    (h : Moves p k (.grab .left a) k' x') (ha : a.idle = true) (hother : k.mainuser ≠ p)
    (hclean : k.clean = true) :
    (∃ a' : Grab, a'.idle = true ∧ x' = .grab .left a') ∧ k'.mainuser = k.mainuser ∧
      k'.clean = k.clean ∧ k'.permits = k.permits := by
  cases h with
  | grabOwn _ hown => exact absurd hown hother
  | grabOther _ _ => exact ⟨⟨.look, rfl, rfl⟩, rfl, rfl, rfl⟩
  | grabClean _ _ => exact ⟨⟨.wait, rfl, rfl⟩, rfl, rfl, rfl⟩
  | grabDirty _ hdirty => cases hclean.symm.trans hdirty
  | grabWait _ => exact ⟨⟨.waiting, rfl, rfl⟩, rfl, rfl, rfl⟩
  | grabReenter _ _ => exact ⟨⟨.test, rfl, rfl⟩, rfl, rfl, rfl⟩
  | grabEnter _ _ | grabAcquire _ _ | grabTake _ | grabRelease _ | grabExit _ => cases ha

theorem Stranded.of_same {s s' : Table} {p : Seat} {a : Grab} (h : Stranded s p)
    (hsame : SameFields s s') (ha : a.idle = true) (hp : s'.pc p = .grab .left a) :
    Stranded s' p := by
  obtain ⟨hm, hc, -⟩ := hsame (p + 1)
  exact ⟨⟨a, ha, hp⟩, hm ▸ h.other, hc.trans h.clean⟩

/-- **The step lemma.** -/
theorem stranded_next {s s' : Table} {a : Label} (hall : ∀ p, Stranded s p)
    (hn : next s a = some s') : (∀ p, Stranded s' p) ∧ SameFields s s' := by
  cases a with
  | wake p =>
      obtain ⟨sd, hold, hstick, hnew, hother⟩ := wake_cases hn
      have hsame : SameFields s s' := by
        intro c
        rw [hstick]
        exact ⟨rfl, rfl, rfl⟩
      refine ⟨fun q => ?_, hsame⟩
      by_cases hq : q = p
      · subst hq
        obtain ⟨b, -, hb⟩ := (hall q).loop
        rw [hold] at hb
        cases hb
        exact (hall q).of_same hsame rfl hnew
      · obtain ⟨b, hidle, hb⟩ := (hall q).loop
        exact (hall q).of_same hsame hidle ((hother q hq).trans hb)
  | step p =>
      obtain ⟨k, x, hm, hstick, hpc, hother⟩ := step_cases hn
      obtain ⟨b, hidle, hb⟩ := (hall p).loop
      have hf : s.focus p = p + 1 := by rw [Table.focus, hb]; rfl
      rw [hf, hb] at hm
      obtain ⟨⟨b', hidle', hx⟩, hmain, hclean, hperm⟩ :=
        moves_idle hm hidle (hall p).other (hall p).clean
      have hsame : SameFields s s' := by
        intro c
        rcases stick_cases hstick c with ⟨rfl, hc⟩ | ⟨-, hc⟩
        · rw [hc, hf]
          exact ⟨hmain, hclean, hperm⟩
        · rw [hc]
          exact ⟨rfl, rfl, rfl⟩
      refine ⟨fun q => ?_, hsame⟩
      by_cases hq : q = p
      · subst hq
        exact (hall q).of_same hsame hidle' (hpc.trans hx)
      · have hquiet := hother q hq
        rw [hb] at hquiet
        obtain ⟨c, hidle, hc⟩ := (hall q).loop
        exact (hall q).of_same hsame hidle (hquiet.trans hc)

theorem SameFields.trans {s s' s'' : Table} (h : SameFields s s') (h' : SameFields s' s'') :
    SameFields s s'' := by
  intro c
  obtain ⟨h1, h2, h3⟩ := h c
  obtain ⟨h1', h2', h3'⟩ := h' c
  exact ⟨h1'.trans h1, h2'.trans h2, h3'.trans h3⟩

theorem stranded_replay {s s' : Table} {as : List Label} (hall : ∀ p, Stranded s p)
    (hrun : machine.replay s as = some s') : (∀ p, Stranded s' p) ∧ SameFields s s' := by
  induction as generalizing s with
  | nil =>
      obtain rfl := Option.some.inj hrun
      exact ⟨hall, fun c => ⟨rfl, rfl, rfl⟩⟩
  | cons a as ih =>
      obtain ⟨t, hn, hrest⟩ := Machine.replay_cons hrun
      obtain ⟨hall', hsame⟩ := stranded_next hall hn
      obtain ⟨hall'', hsame'⟩ := ih hall' hrest
      exact ⟨hall'', hsame.trans hsame'⟩

/-! ## Results -/

/-- **Two deadlocks.** No thread can take a step exactly if all five philosophers wait for
the semaphore of their left chopstick, or all five are in its wait set. -/
theorem deadlock_iff {s : Table} (hs : machine.Reach s) :
    (∀ p, next s (.step p) = none) ↔
      (∀ p, s.pc p = .acqLeft) ∨ ∀ p, s.pc p = .grab .left .waiting := by
  have hok := reach_dinersOk hs
  constructor
  · exact fun h => all_blocked_alike hok fun p => blocked_of_next (h p)
  · rintro (h | h) p
    · exact next_acqLeft (h p) (permits_of_all_acqLeft hok.permits h _) _ (Or.inl rfl)
    · exact next_waiting (h p)

/-! The run to the second deadlock. The first philosopher gets its right chopstick by the
shortcut, which leaves it dirty; so the last one takes it over, and the first one puts down
a chopstick that is not its own. -/

/-- The philosophers up to `n` have the right chopstick. -/
def hungry (n : Seat) : Table :=
  quiet (fun c => if c ≤ n then c else c + 4) (fun c => decide (0 < c ∧ c ≤ n))
    (fun p => if p ≤ n then .grab .left .enter else .think)

/-- Those above `n` have eaten and put down the right chopstick. -/
def fed (n : Seat) : Table :=
  quiet (fun c => if n < c + 4 then c + 4 else c) (fun c => decide (c ≠ n + 1))
    (fun p => if n < p then .put .left .enter else .grab .left .enter)

/-- And `n` is about to eat. -/
def meal (n : Seat) : Table :=
  quiet (fun c => if n ≤ c + 4 then c + 4 else c) (fun _ => true)
    (fun p => if n < p then .put .left .enter else
      if p = n then .acqRight else .grab .left .enter)

def allFed : Table := quiet (fun c => c + 4) (fun c => decide (c ≠ 0)) (fun _ => .put .left .enter)

/-- The first one and those up to `n` have put down the left chopstick, and the latter have
the right one again. -/
def again (n : Seat) : Table :=
  quiet (fun c => if 0 < c ∧ c ≤ n then c else c + 4) (fun c => decide (c ≠ 0 ∧ c ≠ n + 1))
    (fun p => if p = 0 then .grab .right .enter else
      if p ≤ n then .grab .left .enter else .put .left .enter)

/-- Everybody has the right chopstick, and those before `n` wait for the left one. -/
def queued (n : Seat) : Table :=
  quiet id (fun _ => true) (fun p => if p < n then .grab .left .waiting else .grab .left .enter)

def allWaiting : Table := quiet id (fun _ => true) (fun _ => .grab .left .waiting)

theorem hungry_next : ∀ n : Seat, n < 4 →
    machine.replay (hungry n) (steps (n + 1) 9) = some (hungry (n + 1)) := by
  decide +kernel

theorem fed_next : ∀ n : Seat, machine.replay (fed n) (steps n 8) = some (meal n) := by
  decide +kernel

theorem meal_next : ∀ n : Seat, n < 4 →
    machine.replay (meal (n + 1)) (steps (n + 1) 9) = some (fed n) := by
  decide +kernel

theorem again_next : ∀ n : Seat, n < 4 →
    machine.replay (again n) (steps (n + 1) 13) = some (again (n + 1)) := by
  decide +kernel

theorem queued_next : ∀ n : Seat, n < 4 →
    machine.replay (queued n) (steps n 4) = some (queued (n + 1)) := by
  decide +kernel

/-- A family of stages, one after the other. -/
theorem reach_stages {f : Seat → Table} (h0 : machine.Reach (f 0))
    (hstep : ∀ n : Seat, n < 4 → machine.Reach (f n) → machine.Reach (f (n + 1))) :
    machine.Reach (f 4) :=
  hstep 3 (by decide) (hstep 2 (by decide) (hstep 1 (by decide) (hstep 0 (by decide) h0)))

theorem allWaiting_reached : machine.Reach allWaiting := by
  have hfirst : machine.replay setup (steps 0 4) = some (hungry 0) := by
    decide +kernel
  have hfed : hungry 4 = fed 4 := by
    decide +kernel
  have hlast : machine.replay (meal 0) (steps 0 9) = some allFed := by
    decide +kernel
  have hput : machine.replay allFed (steps 0 5) = some (again 0) := by
    decide +kernel
  have hround : machine.replay (again 4) (steps 0 8) = some (queued 0) := by
    decide +kernel
  have hend : machine.replay (queued 4) (steps 4 4) = some allWaiting := by
    decide +kernel
  have h1 : machine.Reach (hungry 4) :=
    reach_stages (Machine.Reach.replay (.init rfl) hfirst) fun n hn h =>
      h.replay (hungry_next n hn)
  -- they eat in the other direction
  have hmeal : ∀ n : Seat, n < 4 → machine.Reach (fed (n + 1)) → machine.Reach (fed n) :=
    fun n hn h => (h.replay (fed_next (n + 1))).replay (meal_next n hn)
  have h2 : machine.Reach (fed 0) :=
    hmeal 0 (by decide) (hmeal 1 (by decide) (hmeal 2 (by decide) (hmeal 3 (by decide)
      (hfed ▸ h1))))
  have h3 : machine.Reach (again 4) :=
    reach_stages (((h2.replay (fed_next 0)).replay hlast).replay hput) fun n hn h =>
      h.replay (again_next n hn)
  have h4 : machine.Reach (queued 4) :=
    reach_stages (h3.replay hround) fun n hn h => h.replay (queued_next n hn)
  exact h4.replay hend

theorem deadlock_iff_allWaiting : machine.Reach allWaiting ∧
    ((∀ p, next allWaiting (.step p) = none) ↔
      (∀ p, allWaiting.pc p = .acqLeft) ∨ ∀ p, allWaiting.pc p = .grab .left .waiting) :=
  ⟨allWaiting_reached, deadlock_iff allWaiting_reached⟩

/-- **A deadlock is for ever.** Threads in a wait set may still wake up for no reason, but
whatever they do, nobody gets past the statement it is stuck at: a philosopher is where it
was, or in the loop of `grabChopstick` at its left chopstick. No chopstick changes. -/
theorem deadlock_forever {s s' : Table} {as : List Label} (hs : machine.Reach s)
    (hdead : ∀ p, next s (.step p) = none) (hrun : machine.replay s as = some s') :
    (∀ p, s'.pc p = s.pc p ∨ ∃ a : Grab, a.idle = true ∧ s'.pc p = .grab .left a) ∧
      SameFields s s' := by
  have hok := reach_dinersOk hs
  have hall : ∀ p, Blocked (s.stick (s.focus p)) (s.pc p) := fun p => blocked_of_next (hdead p)
  rcases all_blocked_alike hok hall with h | h
  · -- nothing moves
    cases as with
    | nil =>
        obtain rfl := Option.some.inj hrun
        exact ⟨fun p => Or.inl rfl, fun c => ⟨rfl, rfl, rfl⟩⟩
    | cons a as =>
        obtain ⟨t, hn, -⟩ := Machine.replay_cons hrun
        have hzero := permits_of_all_acqLeft hok.permits h
        have hnone : next s a = none := by
          cases a with
          | step p => exact next_acqLeft (h p) (hzero _) _ (Or.inl rfl)
          | wake p => exact next_acqLeft (h p) (hzero _) _ (Or.inr rfl)
        cases hnone.symm.trans hn
  · obtain ⟨hend, hsame⟩ := stranded_replay (fun p => stranded_of_waiting hok hall (h p)) hrun
    exact ⟨fun p => Or.inr (hend p).loop, hsame⟩

theorem deadlock_forever_awake : ∃ s',
    machine.replay allWaiting (.wake 0 :: steps 0 3) = some s' ∧ s'.pc 0 = .grab .left .wait ∧
    (∀ p, s'.pc p = allWaiting.pc p ∨ ∃ a : Grab, a.idle = true ∧ s'.pc p = .grab .left a) ∧
      SameFields allWaiting s' := by
  have hrun : (machine.replay allWaiting (.wake 0 :: steps 0 3)).map (fun s => s.pc 0) =
      some (.grab .left .wait) := by
    decide +kernel
  obtain ⟨s', hs', hpc⟩ := Option.map_eq_some_iff.mp hrun
  exact ⟨s', hs', hpc, deadlock_forever allWaiting_reached (by decide +kernel) hs'⟩

end OsProjects.Philosophers
