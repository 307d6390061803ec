import OsProjects.Philosophers.Meals

/-!
# Everybody eats

In the runs that avoid the shortcut, the end of `eat()` is the only step that changes which
neighbour goes first at a chopstick (`first_step`), and it changes that at both chopsticks
of the one who has eaten, to its neighbours' advantage (`turn_next`). The absence of
deadlocks only needs to know who goes first on the left, at one chopstick; here both sides
count, at every chopstick. So neighbours eat in turns
(`neighbours_take_turns`), and as meals keep coming, nobody starves, whatever the order in
which the threads are scheduled (`everybody_eats`).
-/

namespace OsProjects.Philosophers

open Framework

/-! ## Who goes first -/

/-- At chopstick `c` the neighbour who has it on side `side` goes first. -/
def First (s : Table) (c : Seat) (side : Side) : Prop :=
  ∃ sd, stickOf (s.stick c).mainuser sd = c ∧
    (Uses (s.stick c) (s.pc (s.stick c).mainuser) sd ↔ sd = side)

section First

variable {s s' : Table} {p c : Seat} {side : Side} {k : Chopstick} {x : Pc}

theorem First.unique {side' : Side} (h : First s c side) (h' : First s c side') :
    side = side' := by
  obtain ⟨sd, hsd, huses⟩ := h
  obtain ⟨sd', hsd', huses'⟩ := h'
  obtain rfl : sd = sd' := stickOf_inj (hsd.trans hsd'.symm)
  have hiff : sd = side ↔ sd = side' := huses.symm.trans huses'
  cases sd <;> cases side <;> cases side' <;> simp_all

theorem first_total (hown : OwnerOk s) (c : Seat) : First s c .left ∨ First s c .right := by
  obtain ⟨sd, hsd, -⟩ := hown c
  by_cases huses : Uses (s.stick c) (s.pc (s.stick c).mainuser) sd
  · cases sd with
    | left => exact Or.inl ⟨.left, hsd, iff_of_true huses rfl⟩
    | right => exact Or.inr ⟨.right, hsd, iff_of_true huses rfl⟩
  · cases sd with
    | left => exact Or.inr ⟨.left, hsd, iff_of_false huses (by rintro ⟨⟩)⟩
    | right => exact Or.inl ⟨.right, hsd, iff_of_false huses (by rintro ⟨⟩)⟩

/-- Nothing happens to the chopstick or to its owner. -/
theorem First.congr (h : First s c side) (hstick : s'.stick c = s.stick c)
    (hcases : s'.pc (s.stick c).mainuser = s.pc (s.stick c).mainuser ∨
      ∃ sd, s.pc (s.stick c).mainuser = .grab sd .waiting ∧
        s'.pc (s.stick c).mainuser = .grab sd .reenter) : First s' c side := by
  obtain ⟨sd, hsd, huses⟩ := h
  refine ⟨sd, by rw [hstick]; exact hsd, ?_⟩
  rw [hstick, uses_other hcases rfl]
  exact huses

theorem first_wake (hn : next s (.wake p) = some s') (h : First s c side) : First s' c side := by
  obtain ⟨sd, hold, hstick, hnew, hother⟩ := wake_cases hn
  refine h.congr (by rw [hstick]) ?_
  by_cases hq : (s.stick c).mainuser = p
  · rw [hq]
    exact Or.inr ⟨sd, hold, hnew⟩
  · exact Or.inl (hother _ hq)

/-- The step is about `c`, a dirty chopstick, and takes it over: who does so was first. -/
theorem first_take (hmon : MonitorsOk s) (hsec : SecuredOk s)
    (hm : Moves p (s.stick (s.focus p)) (s.pc p) k x) (hpc : s'.pc p = x)
    (hc : s'.stick (s.focus p) = k) (htake : s.pc p = .grab (s.pc p).side .take)
    (h : First s (s.focus p) side) : First s' (s.focus p) side := by
  obtain ⟨sd, hsd, huses⟩ := h
  have hsaw := hmon.seen p
  rw [htake] at hsaw
  obtain ⟨hnot, hdirty⟩ := hsaw
  have hidle : ¬ Uses (s.stick (s.focus p)) (s.pc (s.stick (s.focus p)).mainuser) sd := by
    rintro (h | ⟨-, h⟩)
    · have hclean := (hsec _ sd (secured_of_busy h)).2
      rw [hsd, hdirty] at hclean
      cases hclean
    · rw [hdirty] at h
      cases h
  have hside : (s.pc p).side = side := by
    have hne : sd ≠ side := fun heq => hidle (huses.mpr heq)
    rcases shared_sides hnot hsd with ⟨hr, hl, -⟩ | ⟨hl, hr, -⟩
    · rw [hl]
      cases side with
      | left => rfl
      | right => exact absurd hr hne
    · rw [hr]
      cases side with
      | left => exact absurd hl hne
      | right => rfl
  rw [htake] at hm
  cases hm
  refine ⟨side, ?_, ?_⟩
  · rw [hc, Table.focus, hside]
  · rw [hc, hpc, hside]
    refine iff_of_true (Or.inl ?_) rfl
    cases side <;> rfl

/-- The owner's own step at its chopstick. -/
theorem first_own (hmon : MonitorsOk s) (hsec : SecuredOk s) (hown : OwnerOk s)
    (hno : ¬ Shortcut s p) (hend : s.pc p ≠ .relLeft)
    (hm : Moves p (s.stick (s.focus p)) (s.pc p) k x) (hpc : s'.pc p = x)
    (hc : s'.stick (s.focus p) = k) (htake : s.pc p ≠ .grab (s.pc p).side .take)
    (hself : (s.stick (s.focus p)).mainuser = p) (h : First s (s.focus p) side) :
    First s' (s.focus p) side := by
  obtain ⟨sd, hsd, huses⟩ := h
  obtain ⟨sd', hsd', heng⟩ := hown (s.focus p)
  rw [hself] at hsd huses hsd' heng
  obtain rfl : sd = (s.pc p).side := stickOf_inj hsd
  obtain rfl : sd' = (s.pc p).side := stickOf_inj hsd'
  have hkeep : k.mainuser = p := by
    rcases moves_fields hm with ⟨h, -⟩ | ⟨sd', h, -⟩ | ⟨sd', -, -, h, -⟩
    · exact h.trans hself
    · exact absurd (by rw [h]; rfl) htake
    · exact h.trans hself
  have hclean : s.pc p = .grab (s.pc p).side .test →
      (s.stick (s.focus p)).clean = true := by
    intro htest
    by_contra hdirty
    exact hno ⟨htest, hself, Bool.eq_false_of_not_eq_true hdirty⟩
  refine ⟨(s.pc p).side, by rw [hc, hkeep]; rfl, ?_⟩
  rw [hc, hkeep, hpc, moves_uses hm hend htake hself hclean (hmon.seen p)
    (fun h => (hsec p _ h).2) heng]
  exact huses

/-- A step other than the end of `eat()` leaves the order at every chopstick. -/
theorem first_step (hmon : MonitorsOk s) (hsec : SecuredOk s) (hown : OwnerOk s)
    (hno : ¬ Shortcut s p) (hend : s.pc p ≠ .relLeft) (hn : next s (.step p) = some s')
    (h : First s c side) : First s' c side := by
  obtain ⟨k, x, hm, hstick, hpc, hother⟩ := step_cases hn
  rcases stick_cases hstick c with ⟨rfl, hc⟩ | ⟨hne, hc⟩
  · by_cases htake : s.pc p = .grab (s.pc p).side .take
    · exact first_take hmon hsec hm hpc hc htake h
    · by_cases hself : (s.stick (s.focus p)).mainuser = p
      · exact first_own hmon hsec hown hno hend hm hpc hc htake hself h
      · obtain ⟨sd, hsd, huses⟩ := h
        rcases moves_fields hm with ⟨h1, h2⟩ | ⟨sd', h, -⟩ | ⟨sd', h, -⟩
        · refine ⟨sd, by rw [hc, h1]; exact hsd, ?_⟩
          rw [hc, h1, uses_other (other_cases (hother _ hself)) h2]
          exact huses
        · exact absurd (by rw [h]; rfl) htake
        · -- only the owner writes `clean = false`
          have hput := hsec p sd' (by rw [h]; cases sd' <;> rfl)
          have hfocus : stickOf p sd' = s.focus p := by rw [Table.focus, h]; rfl
          rw [hfocus] at hput
          exact absurd hput.1 hself
  · by_cases hself : (s.stick c).mainuser = p
    · obtain ⟨sd, hsd, huses⟩ := h
      refine ⟨sd, by rw [hc]; exact hsd, ?_⟩
      rw [hc, hself]
      rw [hself] at hsd huses
      have hside : sd ≠ (s.pc p).side := by
        rintro rfl
        exact hne hsd.symm
      rw [hpc, moves_uses_side hm hend hside]
      exact huses
    · exact h.congr hc (other_cases (hother _ hself))

end First

/-! ## The end of a meal -/

section Meal

variable {s s' : Table} {p : Seat}

/-- While it eats, a philosopher goes first on both sides. -/
theorem first_eating (hsec : SecuredOk s) (hend : s.pc p = .relLeft) (sd : Side) :
    First s (stickOf p sd) sd := by
  have hown : (s.stick (stickOf p sd)).mainuser = p := (hsec p sd (by rw [hend]; rfl)).1
  refine ⟨sd, by rw [hown], ?_⟩
  rw [hown, hend]
  exact iff_of_true (Or.inl rfl) rfl

def Side.other : Side → Side
  | .left => .right
  | .right => .left

/-- Then its neighbours do. -/
theorem first_eaten (hsec : SecuredOk s) (hend : s.pc p = .relLeft)
    (hn : next s (.step p) = some s') (sd : Side) : First s' (stickOf p sd) sd.other := by
  obtain ⟨k, x, hm, hstick, hpc, -⟩ := step_cases hn
  have hown : (s.stick (stickOf p sd)).mainuser = p := (hsec p sd (by rw [hend]; rfl)).1
  have hkeep : (s'.stick (stickOf p sd)).mainuser = p := by
    rcases stick_cases hstick (stickOf p sd) with ⟨hf, hc⟩ | ⟨-, hc⟩
    · rw [hc]
      rcases moves_fields hm with ⟨h1, -⟩ | ⟨sd', h1, -⟩ | ⟨sd', h1, -⟩
      · rw [h1, ← hf]
        exact hown
      · cases hend.symm.trans h1
      · cases hend.symm.trans h1
    · rw [hc]
      exact hown
  refine ⟨sd, by rw [hkeep], ?_⟩
  rw [hkeep, hpc]
  rw [hend] at hm
  cases hm
  refine iff_of_false ?_ (by cases sd <;> exact Side.noConfusion)
  rintro (h | ⟨h, -⟩)
  · cases h
  · cases h

/-- At the other three chopsticks nothing happens. -/
theorem first_elsewhere {c : Seat} {side : Side} (hn : next s (.step p) = some s')
    (hc : ∀ sd, stickOf p sd ≠ c) (h : First s c side) : First s' c side := by
  obtain ⟨k, x, -, hstick, -, hother⟩ := step_cases hn
  have hown : (s.stick c).mainuser ≠ p := by
    obtain ⟨sd, hsd, -⟩ := h
    intro heq
    rw [heq] at hsd
    exact hc sd hsd
  have hkeep : s'.stick c = s.stick c := by
    rw [hstick, Function.update_of_ne]
    exact fun heq => hc _ heq.symm
  exact h.congr hkeep (other_cases (hother _ hown))

end Meal

/-! ## Turns -/

/-- A meal of `p`. -/
def ateBy (p : Seat) (s : Table) : Label → Nat
  | .step q => if q = p ∧ s.pc p = .relLeft then 1 else 0
  | .wake _ => 0

def mealsOf (p : Seat) (s : Table) (as : List Label) : Nat := machine.total (ateBy p) s as

theorem ate_eq_sum (s : Table) (a : Label) : ate s a = ∑ p, ateBy p s a := by
  cases a with
  | wake p => simp [ate, ateBy]
  | step q =>
      rw [ate, Finset.sum_eq_single q]
      · simp [ateBy]
      · intro p _ hp
        simp [ateBy, hp.symm]
      · exact fun h => absurd (Finset.mem_univ q) h

theorem meals_eq_sum (s : Table) (as : List Label) : meals s as = ∑ p, mealsOf p s as := by
  have hate : ate = fun s a => ∑ p, ateBy p s a := by
    funext s a
    exact ate_eq_sum s a
  rw [meals, hate]
  exact Machine.total_sum

open Classical in
/-- 1 if the next turn at chopstick `c` is that of the one who has it on the left. -/
noncomputable def turn (s : Table) (c : Seat) : Nat := if First s c .left then 1 else 0

section Turn

variable {s s' : Table} {c : Seat}

theorem turn_left (h : First s c .left) : turn s c = 1 := if_pos h

theorem turn_right (h : First s c .right) : turn s c = 0 :=
  if_neg fun h' => Side.noConfusion (h.unique h')

theorem turn_congr (hown : OwnerOk s) (h : ∀ side, First s c side → First s' c side) :
    turn s' c = turn s c := by
  rcases first_total hown c with hf | hf
  · rw [turn_left hf, turn_left (h _ hf)]
  · rw [turn_right hf, turn_right (h _ hf)]

theorem turn_le (s : Table) (c : Seat) : turn s c ≤ 1 := by
  unfold turn
  split <;> omega

/-- **The step lemma.** A meal passes the turn on, at both chopsticks of the one who has
eaten; nothing else does. -/
theorem turn_next {a : Label} (hok : TableOk s) (hno : NoShortcut s a)
    (hn : next s a = some s') (c : Seat) :
    ateBy (c + 4) s a + turn s' c = ateBy c s a + turn s c := by
  cases a with
  | wake p =>
      rw [turn_congr hok.owner fun side h => first_wake hn h]
      rfl
  | step p =>
      by_cases hend : s.pc p = .relLeft
      · by_cases hright : c = p
        · -- its right chopstick
          subst hright
          have hne : c ≠ c + 4 := fun h => seat_ne_succ c (add_four_eq.mp h.symm)
          have hnext : turn s' c = 1 := turn_left (first_eaten hok.secured hend hn .right)
          have hlast : turn s c = 0 := turn_right (first_eating hok.secured hend .right)
          rw [hnext, hlast]
          simp [ateBy, hend, hne]
        · by_cases hleft : c = p + 1
          · have hp : c + 4 = p := add_four_eq.mpr hleft
            have hnext : turn s' c = 0 := by
              rw [hleft]
              exact turn_right (first_eaten hok.secured hend hn .left)
            have hlast : turn s c = 1 := by
              rw [hleft]
              exact turn_left (first_eating hok.secured hend .left)
            rw [hnext, hlast, hp]
            simp [ateBy, hend, Ne.symm hright]
          · have hkeep : turn s' c = turn s c := by
              refine turn_congr hok.owner fun side h => first_elsewhere hn ?_ h
              intro sd
              cases sd with
              | left => exact fun h => hleft h.symm
              | right => exact fun h => hright h.symm
            have hp : p ≠ c + 4 := fun h => hleft (add_four_eq.mp h.symm)
            rw [hkeep]
            simp [ateBy, hp, Ne.symm hright]
      · have hkeep : turn s' c = turn s c :=
          turn_congr hok.owner fun side h =>
            first_step hok.monitors hok.secured hok.owner hno hend hn h
        have hnone : ∀ q, ateBy q s (.step p) = 0 := by
          intro q
          rw [ateBy, if_neg]
          rintro ⟨rfl, h⟩
          exact hend h
        rw [hkeep, hnone, hnone]

/-- The run lemma. -/
theorem turn_replay {as : List Label} (hs : machine.ReachVia NoShortcut s)
    (hno : machine.StepsMeet NoShortcut s as) (hrun : machine.replay s as = some s') (c : Seat) :
    mealsOf (c + 4) s as + turn s' c = mealsOf c s as + turn s c := by
  induction as generalizing s with
  | nil =>
      obtain rfl := Option.some.inj hrun
      rfl
  | cons a as ih =>
      obtain ⟨t, hn, hrest⟩ := Machine.replay_cons hrun
      have hone := turn_next (reachVia_tableOk hs) hno.1 hn c
      have hmore := ih (hs.step hno.1 hn) (hno.2 t hn) hrest
      unfold mealsOf at hmore ⊢
      rw [Machine.total_cons hn, Machine.total_cons hn]
      omega

end Turn

section Run

variable {s s' : Table} {as : List Label} (hs : machine.ReachVia NoShortcut s)
  (hno : machine.StepsMeet NoShortcut s as) (hrun : machine.replay s as = some s') (p : Seat)

include hs hno hrun

theorem mealsOf_le_succ : mealsOf p s as ≤ mealsOf (p + 1) s as + 1 := by
  have hturn := turn_replay hs hno hrun (p + 1)
  rw [add_four_eq.mpr rfl] at hturn
  have hlast := turn_le s (p + 1)
  omega

theorem mealsOf_succ_le : mealsOf (p + 1) s as ≤ mealsOf p s as + 1 := by
  have hturn := turn_replay hs hno hrun (p + 1)
  rw [add_four_eq.mpr rfl] at hturn
  have hnext := turn_le s' (p + 1)
  omega

/-- Counted from `p` round the table, two seats in either direction. -/
theorem meals_le : meals s as ≤ 5 * mealsOf p s as + 6 := by
  have hround : ∑ q, mealsOf q s as = ∑ q, mealsOf (p + q) s as :=
    (Equiv.sum_comp (Equiv.addLeft p) fun q => mealsOf q s as).symm
  have h1 := mealsOf_succ_le hs hno hrun p
  have h2 := mealsOf_succ_le hs hno hrun (p + 1)
  have h3 := mealsOf_le_succ hs hno hrun (p + 3)
  have h4 := mealsOf_le_succ hs hno hrun (p + 4)
  rw [show p + 1 + 1 = p + 2 by rw [add_assoc]; rfl] at h2
  rw [show p + 3 + 1 = p + 4 by rw [add_assoc]; rfl] at h3
  rw [← add_four_eq.mp rfl] at h4
  rw [meals_eq_sum, hround, Fin.sum_univ_five, add_zero]
  omega

end Run

/-! ## Results -/

/-- The last philosopher goes on from its right chopstick and eats. -/
theorem lastEats_run : machine.StepsMeet NoShortcut (lastHasRight .think) (steps 4 13) ∧
    (machine.replay (lastHasRight .think) (steps 4 13)).isSome = true ∧
    mealsOf 4 (lastHasRight .think) (steps 4 13) = 1 := by
  decide +kernel

/-- **Neighbours take turns.** In a run without shortcuts the meals of two neighbours never
differ by more than one. -/
theorem neighbours_take_turns {s s' : Table} {as : List Label}
    (hs : machine.ReachVia NoShortcut s) (hno : machine.StepsMeet NoShortcut s as)
    (hrun : machine.replay s as = some s') (p : Seat) :
    mealsOf p s as ≤ mealsOf (p + 1) s as + 1 ∧ mealsOf (p + 1) s as ≤ mealsOf p s as + 1 :=
  ⟨mealsOf_le_succ hs hno hrun p, mealsOf_succ_le hs hno hrun p⟩

/-- The one after the last is the first. -/
theorem neighbours_take_turns_lastEats : ∃ s',
    machine.replay (lastHasRight .think) (steps 4 13) = some s' ∧
    mealsOf 4 (lastHasRight .think) (steps 4 13) = 1 ∧
    mealsOf 4 (lastHasRight .think) (steps 4 13) ≤
      mealsOf 0 (lastHasRight .think) (steps 4 13) + 1 := by
  obtain ⟨hno, hsome, hate⟩ := lastEats_run
  obtain ⟨s', hs'⟩ := Option.isSome_iff_exists.mp hsome
  exact ⟨s', hs', hate, (neighbours_take_turns lastHasRight_reached hno hs' 4).1⟩

/-- **Everybody eats.** In a run without shortcuts nobody starves, whatever the order in which
the threads are scheduled: of 414 steps in a row, with no wake-ups for no reason in between,
one ends a meal of `p`. -/
theorem everybody_eats {s s' : Table} {as : List Label}
    (hs : machine.ReachVia NoShortcut s) (hno : machine.StepsMeet NoShortcut s as)
    (hrun : machine.replay s as = some s') (p : Seat) :
    as.length ≤ 413 + 190 * mealsOf p s as + 5 * wakeUps s as := by
  have hlen := length_le_allToGo (reachVia_tableOk hs).monitors hrun
  have hle : s.allToGo ≤ 185 := allToGo_le
  have hmeals := meals_le hs hno hrun p
  omega

theorem everybody_eats_lastEats : ∃ s',
    machine.replay (lastHasRight .think) (steps 4 13) = some s' ∧
    ∀ p, (steps 4 13).length ≤ 413 + 190 * mealsOf p (lastHasRight .think) (steps 4 13) +
      5 * wakeUps (lastHasRight .think) (steps 4 13) := by
  obtain ⟨hno, hsome, -⟩ := lastEats_run
  obtain ⟨s', hs'⟩ := Option.isSome_iff_exists.mp hsome
  exact ⟨s', hs', fun p => everybody_eats lastHasRight_reached hno hs' p⟩

end OsProjects.Philosophers
