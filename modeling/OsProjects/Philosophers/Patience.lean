import OsProjects.Philosophers.Turns

/-!
# Patience

The shortcut of `grabChopstick` is open to a philosopher who is hungry again before its
neighbours have taken the chopsticks over. `think()` sleeps for up to twenty seconds; here it
lasts until they have (`Patient`). Then nobody ever takes the shortcut (`Fresh.noShortcut`),
and as neither side goes first all around the table (`BothWays`), there is always somebody
who may go on: patient philosophers never get stuck (`patient_moves`), and whatever the
order in which they move, all of them eat again and again (`patient_feast`).
-/

namespace OsProjects.Philosophers

open Framework

/-- Nobody ends its `think()` while one of its chopsticks is still its own. -/
def Patient (s : Table) : Label → Prop
  | .step p => s.pc p = .think → ∀ sd, (s.stick (stickOf p sd)).mainuser ≠ p
  | .wake _ => True

instance (s : Table) (a : Label) : Decidable (Patient s a) :=
  match a with
  | .step p => decidable_of_iff (s.pc p = .think →
      (s.stick (stickOf p .right)).mainuser ≠ p ∧ (s.stick (stickOf p .left)).mainuser ≠ p)
      ⟨fun h hp sd => by cases sd <;> simp [h hp], fun h hp => ⟨h hp .right, h hp .left⟩⟩
  | .wake _ => .isTrue trivial

/-! ## No shortcuts -/

/-- The thread at `x` has not looked at its chopstick on side `sd` yet. -/
def awaits : Pc → Side → Bool
  | .grab .right _, .left => true
  | .grab sd' .enter, sd => sd' = sd
  | _, _ => false

/-- A chopstick that `p` has yet to look at is not `p`'s own, and when it has taken it over,
it is clean. -/
structure FreshAt (p : Seat) (k : Chopstick) (x : Pc) (sd : Side) : Prop where
  other : awaits x sd = true → k.mainuser ≠ p
  clean : x = .grab sd .test → k.mainuser = p → k.clean = true

def Fresh (s : Table) : Prop := ∀ p sd, FreshAt p (s.stick (stickOf p sd)) (s.pc p) sd

theorem fresh_setup : Fresh setup := by
  intro p sd
  exact ⟨by rintro ⟨⟩, by rintro ⟨⟩⟩

theorem Fresh.noShortcut {s : Table} (h : Fresh s) (a : Label) : NoShortcut s a := by
  cases a with
  | wake p => trivial
  | step p =>
      rintro ⟨htest, hown, hdirty⟩
      cases hdirty.symm.trans ((h p (s.pc p).side).clean htest hown)

section Step

variable {s s' : Table} {p q : Seat} {k k' : Chopstick} {x x' : Pc} {sd : Side}

/-- The thread's own step, at the chopstick it is about. -/
theorem moves_fresh (h : Moves p k x k' x') (hf : FreshAt p k x x.side) (hseen : Seen p k x)
    (hsec : secured x x.side = true → k.clean = true) (hpat : x = .think → k.mainuser ≠ p) :
    FreshAt p k' x' x.side := by
  have hidle : awaits x' x.side = false → x' ≠ .grab x.side .test → FreshAt p k' x' x.side :=
    fun h1 h2 => ⟨fun h => Bool.noConfusion (h1.symm.trans h), fun h => absurd h h2⟩
  cases h with
  | think => exact ⟨fun _ => hpat rfl, by rintro ⟨⟩⟩
  | grabEnter sd _ =>
      have hother : k.mainuser ≠ p := hf.other (by cases sd <;> rfl)
      exact ⟨fun _ => hother, fun _ h => absurd h hother⟩
  | grabReenter sd _ => exact ⟨fun _ => hseen, fun _ h => absurd h hseen⟩
  | grabRelease sd =>
      refine ⟨fun h => ?_, fun _ _ => hsec (by cases sd <;> rfl)⟩
      cases sd <;> cases h
  | grabExit sd | putExit sd => cases sd <;> exact hidle rfl (by rintro ⟨⟩)
  | grabOwn sd _ | grabOther sd _ | grabClean sd _ | grabDirty sd _ | grabAcquire sd _
  | grabTake sd | grabWait sd | putEnter sd _ | putClean sd | putNotify sd =>
      cases sd <;> exact hidle rfl (by rintro ⟨⟩)
  | _ => exact hidle rfl (by rintro ⟨⟩)

/-- The same on its other side. -/
theorem moves_fresh_side (h : Moves p k x k' x') (hsd : sd ≠ x.side) {k₀ : Chopstick}
    (hf : FreshAt p k₀ x sd) (hpat : x = .think → k₀.mainuser ≠ p) : FreshAt p k₀ x' sd := by
  have hawaits : awaits x' sd = true → x = .think ∨ awaits x sd = true := by
    cases h with
    | think => exact fun _ => Or.inl rfl
    | grabEnter sd' _ | grabReenter sd' _ | grabOwn sd' _ | grabOther sd' _ | grabClean sd' _
    | grabDirty sd' _ | grabAcquire sd' _ | grabTake sd' | grabRelease sd' | grabWait sd'
    | grabExit sd' | putEnter sd' _ | putClean sd' | putNotify sd' | putExit sd' =>
        cases sd' <;> cases sd <;> simp_all [awaits, Pc.side, afterGrab, afterPut]
    | _ => exact fun h => by cases h
  have htest : x' ≠ .grab sd .test := by
    intro hx
    cases h with
    | grabEnter _ _ | grabReenter _ _ | grabRelease _ =>
        cases hx
        exact hsd rfl
    | grabExit sd' | putExit sd' => cases sd' <;> cases hx
    | _ => cases hx
  refine ⟨fun h => ?_, fun h => absurd h htest⟩
  rcases hawaits h with hthink | h
  · exact hpat hthink
  · exact hf.other h

/-- Other threads. -/
theorem FreshAt.congr (hf : FreshAt q k x sd)
    (hcases : x' = x ∨ ∃ sd', x = .grab sd' .waiting ∧ x' = .grab sd' .reenter)
    (hown : k'.mainuser = q → k.mainuser = q ∧ (k.clean = true → k'.clean = true)) :
    FreshAt q k' x' sd := by
  have hawaits : awaits x' sd = awaits x sd := by
    rcases hcases with rfl | ⟨sd', rfl, rfl⟩
    · rfl
    · cases sd' <;> cases sd <;> rfl
  refine ⟨fun h heq => ?_, fun h heq => ?_⟩
  · rw [hawaits] at h
    exact hf.other h (hown heq).1
  · rcases hcases with rfl | ⟨sd', rfl, rfl⟩
    · exact (hown heq).2 (hf.clean h (hown heq).1)
    · cases h

theorem fresh_next {a : Label} (hseen : SeenOk s) (hsec : SecuredOk s) (hf : Fresh s)
    (hpat : Patient s a) (hn : next s a = some s') : Fresh s' := by
  cases a with
  | wake p =>
      obtain ⟨sd', hold, hstick, hnew, hother⟩ := wake_cases hn
      intro q sd
      rw [hstick]
      refine (hf q sd).congr ?_ fun h => ⟨h, id⟩
      by_cases hq : q = p
      · subst hq
        exact Or.inr ⟨sd', hold, hnew⟩
      · exact Or.inl (hother q hq)
  | step p =>
      obtain ⟨k, x, hm, hstick, hpc, hother⟩ := step_cases hn
      intro q sd
      by_cases hq : q = p
      · subst hq
        rw [hpc]
        rcases stick_cases hstick (stickOf q sd) with ⟨hc, hk⟩ | ⟨hc, hk⟩
        · obtain rfl : sd = (s.pc q).side := stickOf_inj hc
          rw [hk]
          exact moves_fresh hm (hf q _) (hseen q) (fun h => (hsec q _ h).2)
            fun hthink => hpat hthink _
        · rw [hk]
          exact moves_fresh_side hm (fun h => hc (by rw [h]; rfl)) (hf q sd)
            fun hthink => hpat hthink sd
      · refine (hf q sd).congr (other_cases (hother q hq)) fun heq => ?_
        rcases stick_cases hstick (stickOf q sd) with ⟨hc, hk⟩ | ⟨-, hk⟩
        · rw [hk] at heq ⊢
          rw [hc]
          rcases moves_fields hm with ⟨h1, h2⟩ | ⟨sd', -, -, h1, -⟩ | ⟨sd', hput, -, h1, -⟩
          · exact ⟨h1.symm.trans heq, fun h => h2.trans h⟩
          · exact absurd (heq.symm.trans h1) hq
          · -- only the owner writes `clean = false`
            have hown := (hsec p sd' (by rw [hput]; cases sd' <;> rfl)).1
            have hfocus : stickOf p sd' = s.focus p := by rw [Table.focus, hput]; rfl
            rw [hfocus, ← h1] at hown
            exact absurd (heq.symm.trans hown) hq
        · rw [hk] at heq ⊢
          exact ⟨heq, id⟩

end Step

/-! ## No circles -/

/-- Somewhere the one on the left goes first, and somewhere the one on the right. -/
def BothWays (s : Table) : Prop := ∀ side, ∃ c, First s c side

theorem bothWays_setup : BothWays setup := by
  have hidle : ∀ c sd, ¬ Uses (setup.stick c) .think sd := by
    rintro c sd (h | ⟨h, -⟩)
    · cases h
    · cases h
  intro side
  cases side with
  | left => exact ⟨0, .right, rfl, iff_of_false (hidle 0 _) (by rintro ⟨⟩)⟩
  | right => exact ⟨1, .left, rfl, iff_of_false (hidle 1 _) (by rintro ⟨⟩)⟩

/-- A meal leaves the neighbours first on both sides. -/
theorem bothWays_next {s s' : Table} {a : Label} (hok : TableOk s) (hboth : BothWays s)
    (hno : NoShortcut s a) (hn : next s a = some s') : BothWays s' := by
  intro side
  obtain ⟨c, hc⟩ := hboth side
  cases a with
  | wake p => exact ⟨c, first_wake hn hc⟩
  | step p =>
      by_cases hend : s.pc p = .relLeft
      · refine ⟨stickOf p side.other, ?_⟩
        have hfirst := first_eaten hok.secured hend hn side.other
        cases side <;> exact hfirst
      · exact ⟨c, first_step hok.monitors hok.secured hok.owner hno hend hn hc⟩

/-- What every state of patient philosophers has: nobody has taken the shortcut to it. -/
structure PatientOk (s : Table) : Prop where
  reached : machine.ReachVia NoShortcut s
  fresh : Fresh s
  bothWays : BothWays s

theorem patientOk {s : Table} (hs : machine.ReachVia Patient s) : PatientOk s := by
  refine @Machine.ReachVia.invariant _ _ _ _ PatientOk ?_ ?_ s hs
  · intro s h0
    rw [show s = setup from h0]
    exact ⟨.init rfl, fresh_setup, bothWays_setup⟩
  · intro s a s' hpok hpat hn
    have hok := reachVia_tableOk hpok.reached
    have hno := hpok.fresh.noShortcut a
    exact ⟨hpok.reached.step hno hn,
      fresh_next hok.monitors.seen hok.secured hpok.fresh hpat hn,
      bothWays_next hok hpok.bothWays hno hn⟩

theorem stepsMeet_noShortcut {s : Table} {as : List Label} (hs : machine.ReachVia Patient s)
    (h : machine.StepsMeet Patient s as) : machine.StepsMeet NoShortcut s as := by
  induction as generalizing s with
  | nil => trivial
  | cons a as ih =>
      exact ⟨(patientOk hs).fresh.noShortcut a, fun s' hn => ih (hs.step h.1 hn) (h.2 s' hn)⟩

/-! ## Somebody goes on -/

section Rest

variable {s : Table}

/-- Who waits for its left chopstick waits for a neighbour who waits for the next one. -/
theorem waiting_next (hok : DinersOk s)
    (hall : ∀ p, Blocked (s.stick (s.focus p)) (s.pc p) ∨ s.pc p = .think)
    (hidle : ∀ p, s.pc p = .grab .left .waiting ∨ s.pc p = .think) (p : Seat)
    (hp : s.pc p = .grab .left .waiting) : s.pc (p + 1) = .grab .left .waiting := by
  have hclean := waits_for_clean hok hall hp
  have hnot := hok.monitors.seen p
  have hf : s.focus p = p + 1 := by rw [Table.focus, hp]; rfl
  rw [hp, hf] at hnot
  rw [stickOf_left] at hclean
  obtain ⟨sd, hsd, heng⟩ := hok.owner (p + 1)
  have hengaged := heng hclean
  cases sd with
  | left => exact absurd (seat_succ_inj hsd) hnot
  | right =>
      rw [show (s.stick (p + 1)).mainuser = p + 1 from hsd] at hengaged
      refine (hidle (p + 1)).resolve_right fun hthink => ?_
      rw [hthink] at hengaged
      rcases hengaged with h | h
      · cases h
      · cases h

/-- An owner that thinks lets the other one go first. -/
theorem first_thinking {c : Seat} {side : Side} (hthink : s.pc (s.stick c).mainuser = .think)
    (h : First s c side) : stickOf (s.stick c).mainuser side.other = c := by
  obtain ⟨sd, hsd, huses⟩ := h
  rw [hthink] at huses
  have hne : sd ≠ side := by
    intro heq
    rcases huses.mpr heq with h | ⟨h, -⟩
    · cases h
    · cases h
  cases sd with
  | left =>
      cases side with
      | left => exact absurd rfl hne
      | right => exact hsd
  | right =>
      cases side with
      | left => exact hsd
      | right => exact absurd rfl hne

/-- If everybody thinks, somebody has no chopstick: else all would have the left one, or all
the right one. -/
theorem somebody_free (hboth : BothWays s) (hthink : ∀ p, s.pc p = .think) :
    ∃ p, ∀ sd, (s.stick (stickOf p sd)).mainuser ≠ p := by
  by_contra hnone
  have hown : ∀ p, (s.stick p).mainuser = p ∨ (s.stick (p + 1)).mainuser = p := by
    intro p
    by_contra h
    refine hnone ⟨p, fun sd heq => h ?_⟩
    cases sd with
    | right => exact Or.inl heq
    | left => exact Or.inr heq
  obtain ⟨c, hc⟩ := hboth .right
  obtain ⟨d, hd⟩ := hboth .left
  have hleft : (s.stick c).mainuser + 1 = c := first_thinking (hthink _) hc
  have hright : (s.stick d).mainuser = d := first_thinking (hthink _) hd
  have hall : ∀ p, (s.stick (p + 1)).mainuser = p := by
    refine round_table (p := (s.stick c).mainuser) (by rw [hleft]) fun p hp => ?_
    refine (hown (p + 1)).resolve_left fun h => ?_
    exact seat_ne_succ p (hp.symm.trans h)
  have hd' := hall (d + 4)
  rw [← add_four_eq.mp rfl, hright] at hd'
  exact seat_ne_succ d (add_four_eq.mp hd'.symm)

end Rest

/-- **Patient philosophers never get stuck.** -/
theorem patient_moves {s : Table} (hs : machine.ReachVia Patient s) :
    ∃ p s', next s (.step p) = some s' ∧ Patient s (.step p) := by
  have hpok := patientOk hs
  have hok := reachVia_tableOk hpok.reached
  have hdiners : DinersOk s := ⟨hok.permits, hok.monitors, hok.owner⟩
  by_contra hnone
  have hall : ∀ p, Blocked (s.stick (s.focus p)) (s.pc p) ∨ s.pc p = .think := by
    intro p
    cases hn : next s (.step p) with
    | none => exact Or.inl (blocked_of_next hn)
    | some t =>
        refine Or.inr ?_
        by_contra hthink
        exact hnone ⟨p, t, hn, fun h => absurd h hthink⟩
  rcases all_alike hdiners hall with hacq | hidle
  · -- a chopstick would be secured from both sides
    have hmine := (hok.secured 0 .left (by rw [hacq]; rfl)).1
    have htheirs := (hok.secured 1 .right (by rw [hacq]; rfl)).1
    cases hmine.symm.trans htheirs
  · by_cases hthink : ∀ p, s.pc p = .think
    · obtain ⟨p, hfree⟩ := somebody_free hpok.bothWays hthink
      cases hn : next s (.step p) with
      | some t => exact hnone ⟨p, t, hn, fun _ => hfree⟩
      | none =>
          have hb := blocked_of_next hn
          rw [hthink p] at hb
          cases hb
    · obtain ⟨p, hp⟩ := not_forall.mp hthink
      have hwait := round_table ((hidle p).resolve_right hp) (waiting_next hdiners hall hidle)
      refine not_all_blocked hok fun q => ?_
      rw [hwait q]
      exact .waiting .left

theorem exists_run {s : Table} (hs : machine.ReachVia Patient s) (n : Nat) :
    ∃ as s', as.length = n ∧ wakeUps s as = 0 ∧ machine.StepsMeet Patient s as ∧
      machine.replay s as = some s' := by
  induction n generalizing s with
  | zero => exact ⟨[], s, rfl, rfl, trivial, rfl⟩
  | succ n ih =>
      obtain ⟨p, t, hn, hpat⟩ := patient_moves hs
      obtain ⟨as, s', hlen, hwake, hmeet, hrun⟩ := ih (hs.step hpat hn)
      refine ⟨.step p :: as, s', by rw [List.length_cons, hlen], ?_, ⟨hpat, ?_⟩, ?_⟩
      · rw [wakeUps, Machine.total_cons hn]
        exact (Nat.zero_add _).trans hwake
      · intro t' hn'
        rw [← Option.some.inj (hn.symm.trans hn')]
        exact hmeet
      · rw [Machine.replay_of_next hn]
        exact hrun

/-! ## Result -/

/-- **A feast.** Patient philosophers can always go on, for as long as they like; and however
they do, all of them eat: after `414 + 190 * n` steps, and five more for every wake-up for no
reason, each has had more than `n` meals. -/
theorem patient_feast {s : Table} (hs : machine.ReachVia Patient s) (n : Nat) :
    (∃ as s', as.length = n ∧ wakeUps s as = 0 ∧ machine.StepsMeet Patient s as ∧
      machine.replay s as = some s') ∧
    ∀ as s', machine.StepsMeet Patient s as → machine.replay s as = some s' →
      414 + 190 * n + 5 * wakeUps s as ≤ as.length → ∀ p, n < mealsOf p s as := by
  refine ⟨exists_run hs n, fun as s' hmeet hrun hlong p => ?_⟩
  have hreached := (patientOk hs).reached
  have hlen := length_le_allToGo (reachVia_tableOk hreached).monitors hrun
  have hle : s.allToGo ≤ 185 := allToGo_le
  have hmeals := meals_le hreached (stepsMeet_noShortcut hs hmeet) hrun p
  omega

/-- The last philosopher, who has no chopstick at first, starts to grab. -/
theorem patient_feast_lastHasRight : machine.ReachVia Patient (lastHasRight .think) ∧
    ∃ as s', as.length = 604 ∧ machine.replay (lastHasRight .think) as = some s' ∧
      ∀ p, 1 < mealsOf p (lastHasRight .think) as := by
  have hs : machine.ReachVia Patient (lastHasRight .think) :=
    Machine.ReachVia.replay (.init rfl)
      (show machine.StepsMeet Patient setup (steps 4 9) by decide +kernel) (by decide +kernel)
  obtain ⟨as, s', hlen, hwake, hmeet, hrun⟩ := (patient_feast hs 604).1
  refine ⟨hs, as, s', hlen, hrun, (patient_feast hs 1).2 as s' hmeet hrun ?_⟩
  omega

end OsProjects.Philosophers
