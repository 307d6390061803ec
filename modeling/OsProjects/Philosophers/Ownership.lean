import OsProjects.Philosophers.Monitors

/-!
# Ownership

In the Chandy/Misra solution a chopstick that is in use is clean, and a clean
chopstick is not handed over. `grabChopstick` makes a chopstick clean when it
takes it from a neighbour, but returns at once to a caller that already owns it,
clean or not: a `Shortcut`. The neighbour then takes it away
(`neighbour_takes_chopstick`). In runs without shortcuts ownership is stable
(`ownership_kept`): from the change of owner to `clean = false` the chopstick is
clean and its owner's (`SecuredOk`).
-/

namespace OsProjects.Philosophers

open Framework

/-! ## Windows -/

/-- From the return of `grabChopstick` to the end of the `eat()` that follows. -/
def committed : Pc → Side → Bool
  | .grab .left _, .right => true
  | .acqRight, _ => true
  | .acqLeft, _ => true
  | .eating, _ => true
  | .relRight, _ => true
  | .relLeft, _ => true
  | _, _ => false

/-- From the change of owner in `grabChopstick` to `clean = false` in
`setChopstick`, the loop test after the change left out. -/
def secured : Pc → Side → Bool
  | .grab sd' .release, sd => sd' = sd ∨ sd = .right
  | .grab sd' .exit, sd => sd' = sd ∨ sd = .right
  | .put sd' .enter, sd => sd' = sd ∨ sd = .left
  | .put sd' .clean, sd => sd' = sd ∨ sd = .left
  | .put .right _, .left => true
  | x, sd => committed x sd

/-- Owned by `p` and clean. -/
def Owned (p : Seat) (k : Chopstick) : Prop := k.mainuser = p ∧ k.clean = true

def SecuredOk (s : Table) : Prop :=
  ∀ p sd, secured (s.pc p) sd = true → Owned p (s.stick (stickOf p sd))

theorem secured_of_committed {x : Pc} {sd : Side} (h : committed x sd = true) :
    secured x sd = true := by
  cases x with
  | grab sd' a =>
      cases sd' with
      | right => cases h
      | left =>
          cases sd with
          | right => cases a <;> rfl
          | left => cases h
  | put sd' a => cases sd <;> cases h
  | _ => exact h

/-! ## Shortcuts -/

/-- The next step of `p` is the loop test of `grabChopstick`, on a chopstick
that is `p`'s already and dirty: the method returns at once. -/
def Shortcut (s : Table) (p : Seat) : Prop :=
  s.pc p = .grab (s.pc p).side .test ∧
    (s.stick (s.focus p)).mainuser = p ∧ (s.stick (s.focus p)).clean = false

def NoShortcut (s : Table) : Label → Prop
  | .step p => ¬ Shortcut s p
  | .wake _ => True

instance (s : Table) (a : Label) : Decidable (NoShortcut s a) :=
  match a with
  | .step _ => inferInstanceAs (Decidable (¬ (_ ∧ _ ∧ _)))
  | .wake _ => .isTrue trivial

/-! ## One step -/

/-- A step leaves the side it is not about as it was. -/
theorem moves_secured_side {p : Seat} {k k' : Chopstick} {x x' : Pc} {sd : Side}
    (h : Moves p k x k' x') (hsd : sd ≠ x.side) : secured x' sd = secured x sd := by
  cases h with
  | think | acqRight _ | acqLeft _ | eating | relRight | relLeft => cases sd <;> rfl
  | grabEnter sd' _ | grabOwn sd' _ | grabOther sd' _ | grabClean sd' _ | grabDirty sd' _
  | grabAcquire sd' _ | grabTake sd' | grabRelease sd' | grabWait sd' | grabReenter sd' _
  | grabExit sd' | putEnter sd' _ | putClean sd' | putNotify sd' | putExit sd' =>
      cases sd <;> cases sd' <;> first | rfl | exact absurd rfl hsd

/-- **The thread's own step.** Without a shortcut, what it comes to hold is its
own and clean. -/
theorem moves_secured {p : Seat} {k k' : Chopstick} {x x' : Pc} (h : Moves p k x k' x')
    (hno : x = .grab x.side .test → k.mainuser = p → k.clean = true)
    (hsec : secured x x.side = true → Owned p k) :
    secured x' x.side = true → Owned p k' := by
  intro hx'
  cases h with
  | grabOwn sd hown => exact ⟨hown, hno rfl hown⟩
  | grabTake sd => exact ⟨rfl, rfl⟩
  | grabExit sd | putEnter sd _ => exact hsec (by cases sd <;> rfl)
  | acqRight _ | acqLeft _ | eating | relRight | relLeft => exact hsec rfl
  | think => cases hx'
  | grabEnter sd _ | grabOther sd _ | grabClean sd _ | grabDirty sd _ | grabAcquire sd _
  | grabRelease sd | grabWait sd | grabReenter sd _ | putClean sd | putNotify sd
  | putExit sd => cases sd <;> cases hx'

theorem secured_reenter (sd' sd : Side) :
    secured (.grab sd' .reenter) sd = secured (.grab sd' .waiting) sd := by
  cases sd' <;> cases sd <;> rfl

theorem securedOk_setup : SecuredOk setup := by
  intro p sd h
  cases sd <;> cases h

theorem securedOk_next {s s' : Table} {a : Label} (hseen : SeenOk s) (hok : SecuredOk s)
    (hno : NoShortcut s a) (hn : next s a = some s') : SecuredOk s' := by
  cases a with
  | wake p =>
      obtain ⟨sd, hold, hstick, hnew, hother⟩ := wake_cases hn
      intro q sd' hq
      rw [hstick]
      refine hok q sd' ?_
      by_cases hqp : q = p
      · rw [hqp, hnew, secured_reenter] at hq
        rw [hqp, hold]
        exact hq
      · rw [hother q hqp] at hq
        exact hq
  | step p =>
      obtain ⟨k, x, hm, hstick, hpc, hother⟩ := step_cases hn
      have htest : s.pc p = .grab (s.pc p).side .test →
          (s.stick (s.focus p)).mainuser = p → (s.stick (s.focus p)).clean = true := by
        intro h1 h2
        by_contra h3
        exact hno ⟨h1, h2, Bool.eq_false_of_not_eq_true h3⟩
      intro q sd hq
      by_cases hqp : q = p
      · subst hqp
        rw [hpc] at hq
        by_cases hsd : sd = (s.pc q).side
        · subst hsd
          rw [hstick, show stickOf q (s.pc q).side = s.focus q from rfl,
            Function.update_self]
          exact moves_secured hm htest (hok q _) hq
        · have hne : stickOf q sd ≠ s.focus q := fun h => hsd (stickOf_inj h)
          rw [hstick, Function.update_of_ne hne]
          exact hok q sd (moves_secured_side hm hsd ▸ hq)
      · have hold : secured (s.pc q) sd = true := by
          rcases other_cases (hother q hqp) with heq | ⟨sd', h1, h2⟩
          · rw [← heq]
            exact hq
          · rw [h1, ← secured_reenter, ← h2]
            exact hq
        obtain ⟨hown, hclean⟩ := hok q sd hold
        rcases stick_cases hstick (stickOf q sd) with ⟨hf, hc⟩ | ⟨-, hc⟩
        · -- `p` works on a chopstick that `q` has secured
          rw [hc]
          rw [hf] at hown hclean
          rcases moves_fields hm with ⟨h1, h2⟩ | ⟨sd', h1, -⟩ | ⟨sd', h1, -⟩
          · exact ⟨h1.trans hown, h2.trans hclean⟩
          · have hsaw := hseen p
            rw [h1] at hsaw
            exact absurd (hclean.symm.trans hsaw.2) nofun
          · have hput := hok p sd' (by rw [h1]; cases sd' <;> rfl)
            have hfp : s.focus p = stickOf p sd' := by rw [Table.focus, h1]; rfl
            rw [← hfp] at hput
            exact absurd (hown.symm.trans hput.1) hqp
        · rw [hc]
          exact ⟨hown, hclean⟩

theorem reachVia_securedOk {s : Table} (hs : machine.ReachVia NoShortcut s) :
    MonitorsOk s ∧ SecuredOk s := by
  refine @Machine.ReachVia.invariant _ _ _ _ (fun s => MonitorsOk s ∧ SecuredOk s)
    (fun s h0 => ?_) (fun s a s' hok hno hn => ?_) s hs
  · rw [show s = setup from h0]
    exact ⟨monitorsOk_setup, securedOk_setup⟩
  · exact ⟨hok.1.next hn, securedOk_next hok.1.seen hok.2 hno hn⟩

/-! ## Results -/

/-- **Ownership is stable in runs without shortcuts.** From the return of
`grabChopstick` to the end of `eat()` the chopstick stays the caller's; so a
philosopher eats only while owning both. -/
theorem ownership_kept (s : Table) (hs : machine.ReachVia NoShortcut s) :
    (∀ p sd, committed (s.pc p) sd = true → (s.stick (stickOf p sd)).mainuser = p) ∧
    ∀ p sd, dining (s.pc p) → (s.stick (stickOf p sd)).mainuser = p := by
  obtain ⟨-, hok⟩ := reachVia_securedOk hs
  refine ⟨fun p sd h => (hok p sd (secured_of_committed h)).1, fun p sd h => ?_⟩
  refine (hok p sd ?_).1
  rcases h with h | h
  · rw [h]
    rfl
  · rw [h]
    rfl

/-! ## Runs -/

instance : DecidableEq Table := fun s t =>
  decidable_of_iff (s.stick = t.stick ∧ s.pc = t.pc)
    ⟨fun h => by cases s; cases t; cases h.1; cases h.2; rfl, by rintro rfl; exact ⟨rfl, rfl⟩⟩

def steps (p : Seat) (n : Nat) : List Label := List.replicate n (.step p)

/-- A table with all semaphores and monitors free. -/
def quiet (mainuser : Seat → Seat) (clean : Seat → Bool) (pc : Seat → Pc) : Table :=
  ⟨fun c => ⟨mainuser c, 1, clean c, none⟩, pc⟩

/-- The last philosopher has taken its right chopstick, the first one is
at `x`. -/
def lastHasRight (x : Pc) : Table :=
  quiet ![0, 0, 1, 2, 4] ![false, false, false, false, true]
    ![x, .think, .think, .think, .grab .left .enter]

theorem lastHasRight_reached : machine.ReachVia NoShortcut (lastHasRight .think) :=
  Machine.ReachVia.replay (.init rfl)
    (show machine.StepsMeet NoShortcut setup (steps 4 9) by decide +kernel)
    (by decide +kernel)

/-- The last philosopher takes both chopsticks from its neighbours and eats. -/
theorem ownership_kept_dining : ∃ s, machine.ReachVia NoShortcut s ∧
    dining (s.pc 4) ∧ (s.stick 4).mainuser = 4 ∧ (s.stick 0).mainuser = 4 := by
  have hmeet : machine.StepsMeet NoShortcut (lastHasRight .think) (steps 4 10) := by
    decide +kernel
  have hrun : (machine.replay (lastHasRight .think) (steps 4 10)).map (fun t => t.pc 4) =
      some .eating := by
    decide +kernel
  obtain ⟨s, hs, hpc⟩ := Option.map_eq_some_iff.mp hrun
  have hreach := Machine.ReachVia.replay lastHasRight_reached hmeet hs
  have hdine : dining (s.pc 4) := Or.inl hpc
  have hkept := (ownership_kept s hreach).2 4
  exact ⟨s, hreach, hdine, hkept .right hdine, hkept .left hdine⟩

/-- **A neighbour takes a grabbed chopstick.** The first philosopher's
`grabChopstick` on its right chopstick has returned by the shortcut; its
neighbour then becomes the owner before the first philosopher has eaten. -/
theorem neighbour_takes_chopstick : ∃ s, machine.Reach s ∧
    committed (s.pc 0) .right = true ∧ (s.stick (stickOf 0 .right)).mainuser = 4 := by
  have hfirst : machine.Reach (lastHasRight (.grab .left .enter)) :=
    Machine.Reach.replay (.init rfl)
      (show machine.replay setup (steps 0 4 ++ steps 4 9) = _ by decide +kernel)
  have hrun : (machine.replay (lastHasRight (.grab .left .enter)) (steps 4 5)).map
      (fun t => (t.pc 0, (t.stick 0).mainuser)) = some (.grab .left .enter, 4) := by
    decide +kernel
  obtain ⟨s, hs, hend⟩ := Option.map_eq_some_iff.mp hrun
  obtain ⟨hpc, hown⟩ := Prod.mk.inj hend
  refine ⟨s, Machine.Reach.replay hfirst hs, ?_, hown⟩
  rw [hpc]
  rfl

end OsProjects.Philosophers
