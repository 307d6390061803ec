import OsProjects.Philosophers.Ownership

/-!
# Deadlock

Why Chandy/Misra does not deadlock, and how the shortcut of `grabChopstick`
breaks it.

At each chopstick one of the two neighbours goes before the other: the owner
while it uses the chopstick, the other one once the owner has eaten. Were every
philosopher to go before its neighbour on the same side, five threads could wait
in a circle; `Acyclic` says that at some chopstick it is the other way round. A
step leaves these precedences alone, except for the end of `eat()`, which yields
on both sides (`acyclic_next`). A `Shortcut` takes the precedence instead, and
`all_blocked` is a run where all five philosophers do so in turn.
-/

namespace OsProjects.Philosophers

open Framework

/-! ## Clean chopsticks are in use -/

def engaged (x : Pc) (sd : Side) : Prop := secured x sd = true ∨ x = .grab sd .test

/-- Each chopstick is owned by a neighbour, and is clean only while that
neighbour is engaged with it. -/
def OwnerOk (s : Table) : Prop :=
  ∀ c, ∃ sd, stickOf (s.stick c).mainuser sd = c ∧
    ((s.stick c).clean = true → engaged (s.pc (s.stick c).mainuser) sd)

theorem ownerOk_setup : OwnerOk setup := by
  intro c
  have hside : stickOf (firstOwner c) .right = c ∨ stickOf (firstOwner c) .left = c := by
    revert c
    decide
  rcases hside with h | h
  · exact ⟨.right, h, nofun⟩
  · exact ⟨.left, h, nofun⟩

theorem moves_engaged {p : Seat} {k k' : Chopstick} {x x' : Pc} (h : Moves p k x k' x')
    (hown : k'.mainuser = p) (hseen : Seen p k x)
    (heng : k.mainuser = p → k.clean = true → engaged x x.side) :
    k'.clean = true → engaged x' x.side := by
  intro hclean
  cases h with
  | grabEnter sd _ | grabReenter sd _ | grabRelease sd => exact Or.inr rfl
  | grabOwn sd _ | grabTake sd => exact Or.inl (by cases sd <;> rfl)
  | grabOther sd hother => exact absurd hown hother
  | grabClean sd _ | grabDirty sd _ => exact absurd hown hseen
  | grabAcquire sd _ | grabWait sd => exact absurd hown hseen.1
  | grabExit sd | putEnter sd _ => exact Or.inl (by cases sd <;> rfl)
  | acqRight _ | acqLeft _ | eating | relRight | relLeft => exact Or.inl rfl
  | putClean sd => cases hclean
  | think | putNotify sd | putExit sd =>
      -- not engaged before the step, so not clean
      rcases heng hown hclean with h | h
      · first | cases h | (cases sd <;> cases h)
      · cases h

theorem engaged_side {x : Pc} {sd : Side} (hside : sd ≠ x.side) (h : engaged x sd) :
    secured x sd = true := by
  rcases h with h | h
  · exact h
  · rw [h] at hside
    exact absurd rfl hside

theorem engaged_other {s s' : Table} {q : Seat} {sd : Side}
    (hcases : s'.pc q = s.pc q ∨
      ∃ sd, s.pc q = .grab sd .waiting ∧ s'.pc q = .grab sd .reenter)
    (h : engaged (s.pc q) sd) : engaged (s'.pc q) sd := by
  rcases hcases with heq | ⟨sd', h1, h2⟩
  · rw [heq]
    exact h
  · rw [h1] at h
    rw [h2]
    rcases h with h | h
    · exact Or.inl ((secured_reenter sd' sd).trans h)
    · cases h

theorem ownerOk_next {s s' : Table} {a : Label} (hseen : SeenOk s) (hok : OwnerOk s)
    (hn : next s a = some s') : OwnerOk s' := by
  cases a with
  | wake p =>
      obtain ⟨sd, hold, hstick, hnew, hother⟩ := wake_cases hn
      intro c
      obtain ⟨sd', hsd, heng⟩ := hok c
      rw [hstick]
      refine ⟨sd', hsd, fun hclean => engaged_other ?_ (heng hclean)⟩
      by_cases hq : (s.stick c).mainuser = p
      · rw [hq]
        exact Or.inr ⟨sd, hold, hnew⟩
      · exact Or.inl (hother _ hq)
  | step p =>
      obtain ⟨k, x, hm, hstick, hpc, hother⟩ := step_cases hn
      intro c
      obtain ⟨sd, hsd, heng⟩ := hok c
      rcases stick_cases hstick c with ⟨rfl, hc⟩ | ⟨hne, hc⟩
      · rw [hc]
        by_cases hown : k.mainuser = p
        · -- owned by the thread that moves
          refine ⟨(s.pc p).side, by rw [hown]; rfl, ?_⟩
          rw [hown, hpc]
          refine moves_engaged hm hown (hseen p) fun hold hclean => ?_
          rw [hold] at hsd heng
          rw [← stickOf_inj hsd]
          exact heng hclean
        · rcases moves_fields hm with ⟨h1, h2⟩ | ⟨sd', -, -, h1, -⟩ | ⟨sd', -, -, h1, h2⟩
          · rw [h1] at hown ⊢
            refine ⟨sd, hsd, fun hclean => ?_⟩
            exact engaged_other (other_cases (hother _ hown)) (heng (h2 ▸ hclean))
          · exact absurd h1 hown
          · rw [h1, h2]
            exact ⟨sd, hsd, nofun⟩
      · rw [hc]
        refine ⟨sd, hsd, fun hclean => ?_⟩
        by_cases hown : (s.stick c).mainuser = p
        · rw [hown] at hsd heng ⊢
          have hside : sd ≠ (s.pc p).side := by
            rintro rfl
            exact hne hsd.symm
          rw [hpc]
          exact Or.inl ((moves_secured_side hm hside).trans
            (engaged_side hside (heng hclean)))
        · exact engaged_other (other_cases (hother _ hown)) (heng hclean)

/-! ## Precedence -/

/-- From the change of owner to the end of `eat()`. -/
def busy : Pc → Side → Bool
  | .grab sd' .release, sd => sd' = sd ∨ sd = .right
  | .grab sd' .exit, sd => sd' = sd ∨ sd = .right
  | x, sd => committed x sd

/-- The thread at `x` uses chopstick `k`, its own, on side `sd`. -/
def Uses (k : Chopstick) (x : Pc) (sd : Side) : Prop :=
  busy x sd = true ∨ (x = .grab sd .test ∧ k.clean = true)

/-- At chopstick `c` the neighbour who has it on its left goes first: as an
owner that uses it, or because the other one is an owner that does not. -/
def LeftFirst (s : Table) (c : Seat) : Prop :=
  ∃ sd, stickOf (s.stick c).mainuser sd = c ∧
    (Uses (s.stick c) (s.pc (s.stick c).mainuser) sd ↔ sd = .left)

def Acyclic (s : Table) : Prop := ∃ c, LeftFirst s c

theorem secured_of_busy {x : Pc} {sd : Side} (h : busy x sd = true) :
    secured x sd = true := by
  cases x with
  | grab sd' a => cases a <;> exact h
  | put sd' a => cases sd <;> cases h
  | _ => exact h

theorem busy_reenter (sd' sd : Side) :
    busy (.grab sd' .reenter) sd = busy (.grab sd' .waiting) sd := by
  cases sd' <;> cases sd <;> rfl

theorem uses_other {s s' : Table} {q : Seat} {sd : Side} {k k' : Chopstick}
    (hcases : s'.pc q = s.pc q ∨
      ∃ sd, s.pc q = .grab sd .waiting ∧ s'.pc q = .grab sd .reenter)
    (hclean : k'.clean = k.clean) : Uses k' (s'.pc q) sd ↔ Uses k (s.pc q) sd := by
  unfold Uses
  rw [hclean]
  rcases hcases with heq | ⟨sd', h1, h2⟩
  · rw [heq]
  · rw [h1, h2, busy_reenter]
    refine or_congr Iff.rfl (iff_of_false ?_ ?_)
    · exact fun h => nomatch h.1
    · exact fun h => nomatch h.1

/-- A step of an owner changes nothing on its other side before the end of `eat()`. -/
theorem moves_uses_side {p : Seat} {k k' : Chopstick} {x x' : Pc} {sd : Side}
    (h : Moves p k x k' x') (hend : x ≠ .relLeft) (hsd : sd ≠ x.side) (k₀ : Chopstick) :
    Uses k₀ x' sd ↔ Uses k₀ x sd := by
  have htest : x ≠ .grab sd .test := by
    rintro rfl
    exact hsd rfl
  have hbusy : busy x' sd = busy x sd ∧ x' ≠ .grab sd .test := by
    cases h with
    | think | acqRight _ | acqLeft _ | eating | relRight => cases sd <;> exact ⟨rfl, nofun⟩
    | relLeft => exact absurd rfl hend
    | grabEnter sd' _ | grabReenter sd' _ | grabRelease sd' =>
        refine ⟨?_, ?_⟩
        · cases sd <;> cases sd' <;> first | rfl | exact absurd rfl hsd
        · rintro ⟨⟩
          exact hsd rfl
    | grabOwn sd' _ | grabOther sd' _ | grabClean sd' _ | grabDirty sd' _
    | grabAcquire sd' _ | grabTake sd' | grabWait sd' | grabExit sd' | putEnter sd' _
    | putClean sd' | putNotify sd' | putExit sd' =>
        cases sd <;> cases sd' <;>
          first | exact ⟨rfl, nofun⟩ | exact absurd rfl hsd
  unfold Uses
  rw [hbusy.1]
  exact or_congr Iff.rfl (iff_of_false (fun h => hbusy.2 h.1) fun h => htest h.1)

/-- **A step of an owner keeps its precedence** on the side it is about, too. -/
theorem moves_uses {p : Seat} {k k' : Chopstick} {x x' : Pc} (h : Moves p k x k' x')
    (hend : x ≠ .relLeft) (htake : x ≠ .grab x.side .take) (hown : k.mainuser = p)
    (hno : x = .grab x.side .test → k.clean = true) (hseen : Seen p k x)
    (hsec : secured x x.side = true → k.clean = true)
    (heng : k.clean = true → engaged x x.side) :
    Uses k' x' x.side ↔ Uses k x x.side := by
  cases h with
  | relLeft => exact absurd rfl hend
  | grabTake sd => exact absurd rfl htake
  | grabOther sd hother => exact absurd hown hother
  | grabClean sd _ | grabDirty sd _ | grabReenter sd _ => exact absurd hown hseen
  | grabAcquire sd _ | grabWait sd => exact absurd hown hseen.1
  | grabOwn sd _ =>
      refine iff_of_true (Or.inl ?_) (Or.inr ⟨rfl, hno rfl⟩)
      cases sd <;> rfl
  | grabRelease sd =>
      refine iff_of_true (Or.inr ⟨rfl, hsec ?_⟩) (Or.inl ?_)
      · cases sd <;> rfl
      · cases sd <;> rfl
  | grabExit sd =>
      refine iff_of_true (Or.inl ?_) (Or.inl ?_)
      · cases sd <;> rfl
      · cases sd <;> rfl
  | grabEnter sd _ =>
      -- a clean chopstick of its own would have it engaged already
      have hdirty : ¬ k.clean = true := by
        intro hclean
        rcases heng hclean with h | h
        · cases sd <;> cases h
        · cases h
      refine iff_of_false ?_ ?_
      · rintro (h | ⟨-, h⟩)
        · cases sd <;> cases h
        · exact hdirty h
      · rintro (h | ⟨h, -⟩)
        · cases sd <;> cases h
        · cases h
  | acqRight _ | acqLeft _ | eating | relRight => exact iff_of_true (Or.inl rfl) (Or.inl rfl)
  | think =>
      refine iff_of_false ?_ ?_
      · rintro (h | ⟨h, -⟩) <;> cases h
      · rintro (h | ⟨h, -⟩) <;> cases h
  | putEnter sd _ | putClean sd | putNotify sd | putExit sd =>
      refine iff_of_false ?_ ?_
      · rintro (h | ⟨h, -⟩) <;> cases sd <;> cases h
      · rintro (h | ⟨h, -⟩) <;> cases sd <;> cases h

section LeftFirst

variable {s s' : Table} {p : Seat} {k : Chopstick} {x : Pc}

/-- A dirty chopstick changes hands: its owner did not use it, so the one who
takes it went first before, too. -/
theorem leftFirst_take (hmon : MonitorsOk s) (hsec : SecuredOk s)
    (hm : Moves p (s.stick (s.focus p)) (s.pc p) k x) (hpc : s'.pc p = x)
    (hc : s'.stick (s.focus p) = k) (htake : s.pc p = .grab (s.pc p).side .take)
    (hfirst : LeftFirst s (s.focus p)) : LeftFirst s' (s.focus p) := by
  obtain ⟨sd, hsd, huses⟩ := hfirst
  have hsaw := hmon.seen p
  rw [htake] at hsaw
  obtain ⟨hnot, hdirty⟩ := hsaw
  have hidle : ¬ Uses (s.stick (s.focus p)) (s.pc (s.stick (s.focus p)).mainuser) sd := by
    rintro (h | ⟨-, h⟩)
    · have hclean := (hsec _ sd (secured_of_busy h)).2
      rw [hsd, hdirty] at hclean
      cases hclean
    · rw [hdirty] at h
      cases h
  have hleft : (s.pc p).side = .left := by
    rcases shared_sides hnot hsd with ⟨-, h, -⟩ | ⟨h, -⟩
    · exact h
    · exact absurd (huses.mpr h) hidle
  rw [htake] at hm
  cases hm
  refine ⟨.left, ?_, ?_⟩
  · rw [hc, Table.focus, hleft]
  · rw [hc, hpc, hleft]
    exact iff_of_true (Or.inl rfl) rfl

/-- The owner's own step at its chopstick. -/
theorem leftFirst_own (hmon : MonitorsOk s) (hsec : SecuredOk s) (hown : OwnerOk s)
    (hno : ¬ Shortcut s p) (hend : s.pc p ≠ .relLeft)
    (hm : Moves p (s.stick (s.focus p)) (s.pc p) k x) (hpc : s'.pc p = x)
    (hc : s'.stick (s.focus p) = k) (htake : s.pc p ≠ .grab (s.pc p).side .take)
    (hself : (s.stick (s.focus p)).mainuser = p) (hfirst : LeftFirst s (s.focus p)) :
    LeftFirst s' (s.focus p) := by
  obtain ⟨sd, hsd, huses⟩ := hfirst
  obtain ⟨sd', hsd', heng⟩ := hown (s.focus p)
  rw [hself] at hsd huses hsd' heng
  obtain rfl : sd = (s.pc p).side := stickOf_inj hsd
  obtain rfl : sd' = (s.pc p).side := stickOf_inj hsd'
  have hkeep : k.mainuser = p := by
    rcases moves_fields hm with ⟨h, -⟩ | ⟨sd', h, -⟩ | ⟨sd', -, -, h, -⟩
    · exact h.trans hself
    · exact absurd (by rw [h]; rfl) htake
    · exact h.trans hself
  have hclean : s.pc p = .grab (s.pc p).side .test →
      (s.stick (s.focus p)).clean = true := by
    intro htest
    by_contra hdirty
    exact hno ⟨htest, hself, Bool.eq_false_of_not_eq_true hdirty⟩
  refine ⟨(s.pc p).side, by rw [hc, hkeep]; rfl, ?_⟩
  rw [hc, hkeep, hpc, moves_uses hm hend htake hself hclean (hmon.seen p)
    (fun h => (hsec p _ h).2) heng]
  exact huses

end LeftFirst

/-- At each chopstick the precedence stays, but for the end of `eat()`. -/
theorem leftFirst_step {s s' : Table} {p : Seat} (hmon : MonitorsOk s) (hsec : SecuredOk s)
    (hown : OwnerOk s) (hno : ¬ Shortcut s p) (hend : s.pc p ≠ .relLeft)
    (hn : next s (.step p) = some s') {c : Seat} (hfirst : LeftFirst s c) :
    LeftFirst s' c := by
  obtain ⟨k, x, hm, hstick, hpc, hother⟩ := step_cases hn
  rcases stick_cases hstick c with ⟨rfl, hc⟩ | ⟨hne, hc⟩
  · by_cases htake : s.pc p = .grab (s.pc p).side .take
    · exact leftFirst_take hmon hsec hm hpc hc htake hfirst
    · by_cases hself : (s.stick (s.focus p)).mainuser = p
      · exact leftFirst_own hmon hsec hown hno hend hm hpc hc htake hself hfirst
      · obtain ⟨sd, hsd, huses⟩ := hfirst
        rcases moves_fields hm with ⟨h1, h2⟩ | ⟨sd', h, -⟩ | ⟨sd', h, -⟩
        · refine ⟨sd, by rw [hc, h1]; exact hsd, ?_⟩
          rw [hc, h1, uses_other (other_cases (hother _ hself)) h2]
          exact huses
        · exact absurd (by rw [h]; rfl) htake
        · -- only the owner writes `clean = false`
          have hput := hsec p sd' (by rw [h]; cases sd' <;> rfl)
          have hfocus : stickOf p sd' = s.focus p := by rw [Table.focus, h]; rfl
          rw [hfocus] at hput
          exact absurd hput.1 hself
  · obtain ⟨sd, hsd, huses⟩ := hfirst
    refine ⟨sd, by rw [hc]; exact hsd, ?_⟩
    rw [hc]
    by_cases hself : (s.stick c).mainuser = p
    · rw [hself] at hsd huses ⊢
      have hside : sd ≠ (s.pc p).side := by
        rintro rfl
        exact hne hsd.symm
      rw [hpc, moves_uses_side hm hend hside]
      exact huses
    · rw [uses_other (other_cases (hother _ hself)) rfl]
      exact huses

/-- **The end of `eat()` yields**: at its right chopstick a philosopher that has
just eaten lets its neighbour go first. -/
theorem leftFirst_of_eaten {s s' : Table} {p : Seat} (hsec : SecuredOk s)
    (hend : s.pc p = .relLeft) (hn : next s (.step p) = some s') : LeftFirst s' p := by
  obtain ⟨k, x, hm, hstick, hpc, -⟩ := step_cases hn
  have hne : p ≠ s.focus p := by
    rw [Table.focus, hend]
    exact seat_ne_succ p
  have hright : s'.stick p = s.stick p := by rw [hstick, Function.update_of_ne hne]
  have hown : (s.stick p).mainuser = p := (hsec p .right (by rw [hend]; rfl)).1
  rw [hend] at hm
  cases hm
  refine ⟨.right, by rw [hright, hown]; rfl, ?_⟩
  rw [hright, hown, hpc]
  refine iff_of_false ?_ Side.noConfusion
  rintro (h | ⟨h, -⟩) <;> cases h

theorem acyclic_next {s s' : Table} {a : Label} (hmon : MonitorsOk s) (hsec : SecuredOk s)
    (hown : OwnerOk s) (hok : Acyclic s) (hno : NoShortcut s a) (hn : next s a = some s') :
    Acyclic s' := by
  obtain ⟨c, hc⟩ := hok
  cases a with
  | wake p =>
      obtain ⟨sd, hold, hstick, hnew, hother⟩ := wake_cases hn
      obtain ⟨sd', hsd, huses⟩ := hc
      refine ⟨c, sd', by rw [hstick]; exact hsd, ?_⟩
      rw [hstick, uses_other ?_ rfl]
      · exact huses
      · by_cases hq : (s.stick c).mainuser = p
        · rw [hq]
          exact Or.inr ⟨sd, hold, hnew⟩
        · exact Or.inl (hother _ hq)
  | step p =>
      by_cases hend : s.pc p = .relLeft
      · exact ⟨p, leftFirst_of_eaten hsec hend hn⟩
      · exact ⟨c, leftFirst_step hmon hsec hown hno hend hn hc⟩

/-- The constructor gives chopstick 0 to philosopher 0, who has it on the right
and does not use it yet. -/
theorem acyclic_setup : Acyclic setup := by
  refine ⟨0, .right, rfl, iff_of_false ?_ nofun⟩
  rintro (h | ⟨h, -⟩) <;> cases h

/-- What every state of a run without shortcuts has. -/
structure TableOk (s : Table) : Prop where
  permits : PermitsOk s
  monitors : MonitorsOk s
  secured : SecuredOk s
  owner : OwnerOk s
  acyclic : Acyclic s

theorem reachVia_tableOk {s : Table} (hs : machine.ReachVia NoShortcut s) : TableOk s := by
  refine hs.invariant (fun s h0 => ?_) fun s a s' hok hno hn => ?_
  · rw [show s = setup from h0]
    exact ⟨permitsOk_setup, monitorsOk_setup, securedOk_setup, ownerOk_setup,
      acyclic_setup⟩
  · exact ⟨permitsOk_next hok.permits hn, hok.monitors.next hn,
      securedOk_next hok.monitors.seen hok.secured hno hn,
      ownerOk_next hok.monitors.seen hok.owner hn,
      acyclic_next hok.monitors hok.secured hok.owner hok.acyclic hno hn⟩

/-! ## Blocked threads -/

/-- Where a thread can be stuck, and on what. -/
inductive Blocked (k : Chopstick) : Pc → Prop where
  | grabEnter (sd : Side) : k.monitor ≠ none → Blocked k (.grab sd .enter)
  | grabAcquire (sd : Side) : k.permits = 0 → Blocked k (.grab sd .acquire)
  | waiting (sd : Side) : Blocked k (.grab sd .waiting)
  | grabReenter (sd : Side) : k.monitor ≠ none → Blocked k (.grab sd .reenter)
  | acqRight : k.permits = 0 → Blocked k .acqRight
  | acqLeft : k.permits = 0 → Blocked k .acqLeft
  | putEnter (sd : Side) : k.monitor ≠ none → Blocked k (.put sd .enter)

theorem enter_eq_none {k : Chopstick} {p : Seat} {x : Pc} (h : k.enter p x = none) :
    k.monitor ≠ none := by
  intro hfree
  rw [Chopstick.enter, hfree] at h
  cases h

theorem acquire_eq_none {k : Chopstick} {x : Pc} (h : k.acquire x = none) :
    k.permits = 0 := by
  by_contra hpos
  rw [Chopstick.acquire, if_neg hpos] at h
  cases h

theorem blocked_of_act {p : Seat} {k : Chopstick} {x : Pc} (h : act p k x = none) :
    Blocked k x := by
  cases x with
  | grab sd a =>
      cases a with
      | enter => exact .grabEnter sd (enter_eq_none h)
      | acquire => exact .grabAcquire sd (acquire_eq_none h)
      | waiting => exact .waiting sd
      | reenter => exact .grabReenter sd (enter_eq_none h)
      | _ => cases h
  | acqRight => exact .acqRight (acquire_eq_none h)
  | acqLeft => exact .acqLeft (acquire_eq_none h)
  | put sd a =>
      cases a with
      | enter => exact .putEnter sd (enter_eq_none h)
      | _ => cases h
  | _ => cases h

theorem blocked_of_next {s : Table} {p : Seat} (h : next s (.step p) = none) :
    Blocked (s.stick (s.focus p)) (s.pc p) := by
  refine blocked_of_act (p := p) ?_
  simp only [next] at h
  split at h
  · assumption
  · cases h

section AllBlocked

variable {s : Table} (hok : TableOk s) (hall : ∀ p, Blocked (s.stick (s.focus p)) (s.pc p))

/-- Of the program points that hold a semaphore, only the second `acq` blocks. -/
theorem holds_of_blocked {k : Chopstick} {x : Pc} {sd : Side} (hb : Blocked k x)
    (hh : holds x sd = true) : x = .acqLeft ∧ sd = .right := by
  cases hb with
  | acqLeft _ =>
      cases sd with
      | right => exact ⟨rfl, rfl⟩
      | left => cases hh
  | _ => cases hh

include hok hall

/-- A semaphore without permits is held at the second `acq`. -/
theorem no_permits {c : Seat} (h0 : (s.stick c).permits = 0) : s.pc c = .acqLeft := by
  have hsum := hok.permits.sum c
  have hleft : holds (s.pc (c + 4)) .left = false := by
    by_contra hh
    cases (holds_of_blocked (hall _) (Bool.eq_true_of_not_eq_false hh)).2
  have hright : holds (s.pc c) .right = true := by
    by_contra hh
    rw [h0, hleft, Bool.eq_false_of_not_eq_true hh] at hsum
    cases hsum
  exact (holds_of_blocked (hall c) hright).1

/-- What is held there is clean, so nobody is about to take it over. -/
theorem not_acquire (p : Seat) (sd : Side) : s.pc p ≠ .grab sd .acquire := by
  intro hpc
  have hb := hall p
  have hf : s.focus p = stickOf p sd := by rw [Table.focus, hpc]; rfl
  rw [hpc, hf] at hb
  cases hb with
  | grabAcquire _ h0 =>
      have hheld := no_permits hok hall h0
      have hclean := (hok.secured (stickOf p sd) .right (by rw [hheld]; rfl)).2
      have hdirty := hok.monitors.seen p
      rw [hpc, hf] at hdirty
      cases hclean.symm.trans hdirty.2

theorem monitor_free (c : Seat) : (s.stick c).monitor = none := by
  cases hmon : (s.stick c).monitor with
  | none => rfl
  | some q =>
      obtain ⟨sd, -, hin⟩ := (hok.monitors.monitor c q).mp hmon
      have hb := hall q
      generalize hx : s.pc q = x at hb hin
      cases hb with
      | grabAcquire sd' _ => exact absurd hx (not_acquire hok hall q sd')
      | _ => cases hin

theorem all_waiting (p : Seat) : ∃ sd, s.pc p = .grab sd .waiting := by
  have hb := hall p
  generalize hx : s.pc p = x at hb
  cases hb with
  | waiting sd => exact ⟨sd, rfl⟩
  | grabEnter sd h | grabReenter sd h | putEnter sd h =>
      exact absurd (monitor_free hok hall _) h
  | grabAcquire sd _ => exact absurd hx (not_acquire hok hall p sd)
  | acqRight h0 =>
      have hf : s.focus p = p := by rw [Table.focus, hx]; rfl
      rw [hf] at h0
      cases hx.symm.trans (no_permits hok hall h0)
  | acqLeft h0 =>
      -- its left chopstick would be secured from both sides
      have hf : s.focus p = p + 1 := by rw [Table.focus, hx]; rfl
      rw [hf] at h0
      have hheld := no_permits hok hall h0
      have hmine := (hok.secured p .left (by rw [hx]; rfl)).1
      have htheirs := (hok.secured (p + 1) .right (by rw [hheld]; rfl)).1
      exact absurd (hmine.symm.trans htheirs) (seat_ne_succ p)

/-- A waiting thread waits for a chopstick whose owner waits with it in the
right hand. -/
theorem waited_for (p : Seat) {sd : Side} (hp : s.pc p = .grab sd .waiting) :
    sd = .left ∧ (s.stick (stickOf p sd)).mainuser = stickOf p sd := by
  have hclean : (s.stick (stickOf p sd)).clean = true := by
    rcases hok.monitors.wait p sd hp with h | ⟨r, sd', -, hr⟩
    · exact h
    · obtain ⟨sd'', hw⟩ := all_waiting hok hall r
      rw [hr] at hw
      cases hw
  obtain ⟨sd', hsd, heng⟩ := hok.owner (stickOf p sd)
  obtain ⟨sd'', hw⟩ := all_waiting hok hall (s.stick (stickOf p sd)).mainuser
  have hright : sd' = .right := by
    rcases heng hclean with h | h
    · rw [hw] at h
      cases sd' with
      | right => rfl
      | left => cases sd'' <;> cases h
    · rw [hw] at h
      cases h
  subst hright
  have hnot := hok.monitors.seen p
  have hf : s.focus p = stickOf p sd := by rw [Table.focus, hp]; rfl
  rw [hp, hf] at hnot
  refine ⟨?_, hsd⟩
  cases sd with
  | left => rfl
  | right => exact absurd hsd hnot

/-- They would wait in a circle, each going before its neighbour. -/
theorem not_all_blocked : False := by
  have hleft : ∀ p, s.pc p = .grab .left .waiting := by
    intro p
    obtain ⟨sd, hp⟩ := all_waiting hok hall p
    rw [(waited_for hok hall p hp).1] at hp
    exact hp
  have hown : ∀ c, (s.stick c).mainuser = c := by
    intro c
    have := (waited_for hok hall (c + 4) (hleft _)).2
    rw [stickOf_left, ← add_four_eq.mp rfl] at this
    exact this
  obtain ⟨c, sd, hsd, huses⟩ := hok.acyclic
  rw [hown c] at hsd huses
  have hright : sd = .right := stickOf_inj hsd
  subst hright
  rw [hleft c] at huses
  exact nomatch huses.mp (Or.inl rfl)

end AllBlocked

/-! ## Results -/

/-- **No deadlock without shortcuts.** In every state of a run whose steps are
no shortcuts, some thread can take a step. -/
theorem some_thread_moves (s : Table) (hs : machine.ReachVia NoShortcut s) :
    ∃ p, (next s (.step p)).isSome = true := by
  by_contra hnone
  refine not_all_blocked (reachVia_tableOk hs) fun p => blocked_of_next ?_
  by_contra hp
  exact hnone ⟨p, Option.isSome_iff_ne_none.mpr hp⟩

theorem some_thread_moves_lastHasRight : machine.ReachVia NoShortcut (lastHasRight .think) ∧
    ∃ p, (next (lastHasRight .think) (.step p)).isSome = true :=
  ⟨lastHasRight_reached, some_thread_moves _ lastHasRight_reached⟩

/-- A stage of the run that ends in a circle. The first philosopher gets both of
its chopsticks by the shortcut. Each of the others takes its right one from the
neighbour before and has its left one by the shortcut, until the last takes the
first philosopher's, too. Philosopher `n` is at `x`, having the right chopstick. -/
def circle (n : Seat) (x : Pc) : Table :=
  quiet (fun c => if c ≤ n then c else c + 4) (fun c => decide (0 < c ∧ c ≤ n))
    (fun p => if p < n then .acqRight else if p = n then x else .think)

theorem circle_right : ∀ n : Seat, n < 4 →
    machine.replay (circle n .acqRight) (steps (n + 1) 9) =
      some (circle (n + 1) (.grab .left .enter)) := by
  decide +kernel

theorem circle_left : ∀ n : Seat, 0 < n → n < 4 →
    machine.replay (circle n (.grab .left .enter)) (steps n 3) =
      some (circle n .acqRight) := by
  decide +kernel

/-- Everybody is about to eat with the right chopstick. -/
def readyToEat : Table :=
  quiet ![4, 1, 2, 3, 4] (fun _ => true) (fun _ => .acqRight)

theorem readyToEat_reached : machine.Reach readyToEat := by
  have hfirst : machine.replay setup (steps 0 7) = some (circle 0 .acqRight) := by
    decide +kernel
  have hlast : machine.replay (circle 4 (.grab .left .enter)) (steps 4 8) =
      some readyToEat := by
    decide +kernel
  have hstep : ∀ n : Seat, n < 3 → machine.Reach (circle n .acqRight) →
      machine.Reach (circle (n + 1) .acqRight) := by
    intro n hn hr
    have hnext : 0 < n + 1 ∧ n + 1 < 4 ∧ n < 4 := by
      clear hr
      revert n
      decide
    exact (hr.replay (circle_right n hnext.2.2)).replay
      (circle_left (n + 1) hnext.1 hnext.2.1)
  have h0 : machine.Reach (circle 0 .acqRight) := Machine.Reach.replay (.init rfl) hfirst
  have h3 : machine.Reach (circle 3 .acqRight) :=
    hstep 2 (by decide) (hstep 1 (by decide) (hstep 0 (by decide) h0))
  exact (h3.replay (circle_right 3 (by decide))).replay hlast

/-- **Deadlock.** All five philosophers hold the semaphore of their right
chopstick and wait for that of the left one; nobody is in a wait set either. -/
theorem all_blocked : ∃ s, machine.Reach s ∧ (∀ p, s.pc p = .acqLeft) ∧
    ∀ a, next s a = none := by
  let s : Table := ⟨fun c => ⟨![4, 1, 2, 3, 4] c, 0, true, none⟩, fun _ => .acqLeft⟩
  have hrun : machine.replay readyToEat
      [.step 0, .step 1, .step 2, .step 3, .step 4] = some s := by
    decide +kernel
  refine ⟨s, readyToEat_reached.replay hrun, fun _ => rfl, fun a => ?_⟩
  cases a with
  | step p => rfl
  | wake p => rfl

end OsProjects.Philosophers
