import OsProjects.Philosophers.Model

/-!
# Permits and holders

The semaphore of a chopstick is taken in two unrelated places: inside
`grabChopstick`, around the change of owner, and in `eat()`. `holds` says at
which program points a thread has it; a step moves a permit between the
semaphore and the thread (`moves_permits`), so permits and holders always add
up to one.
-/

namespace OsProjects.Philosophers

open Framework

/-- At this point the thread holds the semaphore of its chopstick on the given
side: between `sem.acquire` and `sem.release` in `grabChopstick`, or between
`acq` and `rel` in `eat`. -/
def holds : Pc → Side → Bool
  | .grab sd' .take, sd => sd' = sd
  | .grab sd' .release, sd => sd' = sd
  | .acqLeft, .right => true
  | .eating, _ => true
  | .relRight, _ => true
  | .relLeft, .left => true
  | _, _ => false

/-- The threads that hold the semaphore of chopstick `c`. -/
def holders (s : Table) (c : Seat) : Finset Seat :=
  Finset.univ.filter fun p =>
    (stickOf p .right = c ∧ holds (s.pc p) .right) ∨ (stickOf p .left = c ∧ holds (s.pc p) .left)

/-- Past both `acq` calls and before the `rel` calls. -/
def dining (x : Pc) : Prop := x = .eating ∨ x = .relRight

/-! ## One step -/

/-- **A step moves a permit** between the chopstick it is about and the
thread, whose hold on its other chopstick stays. -/
theorem moves_permits {p : Seat} {k k' : Chopstick} {x x' : Pc} (h : Moves p k x k' x') :
    k'.permits + (holds x' x.side).toNat = k.permits + (holds x x.side).toNat ∧
      ∀ sd, sd ≠ x.side → holds x' sd = holds x sd := by
  cases h with
  | acqRight hpos | acqLeft hpos =>
      refine ⟨Nat.succ_pred_eq_of_ne_zero hpos, fun sd hsd => ?_⟩
      cases sd with
      | right => first | rfl | exact absurd rfl hsd
      | left => first | rfl | exact absurd rfl hsd
  | relRight | relLeft =>
      refine ⟨rfl, fun sd hsd => ?_⟩
      cases sd with
      | right => first | rfl | exact absurd rfl hsd
      | left => first | rfl | exact absurd rfl hsd
  | grabAcquire sd hpos =>
      refine ⟨?_, fun sd' hsd => ?_⟩
      · simpa [holds, Pc.side] using Nat.succ_pred_eq_of_ne_zero hpos
      · exact decide_eq_false hsd.symm
  | grabRelease sd =>
      refine ⟨?_, fun sd' hsd => ?_⟩
      · simp [holds, Pc.side]
      · exact (decide_eq_false hsd.symm).symm
  | grabTake sd => exact ⟨rfl, fun _ _ => rfl⟩
  | grabExit sd | putExit sd => cases sd <;> exact ⟨rfl, fun sd' _ => by cases sd' <;> rfl⟩
  | _ => exact ⟨rfl, fun sd' _ => by cases sd' <;> rfl⟩

theorem holds_woken (c q : Seat) (x : Pc) (sd : Side) :
    holds (woken c q x) sd = holds x sd := by
  unfold woken
  split
  · split <;> rfl
  · rfl

/-! ## All steps -/

/-- Permits and what is held on either side of a chopstick add up to one. -/
def AddsUp (stick : Seat → Chopstick) (hold : Seat → Side → Bool) : Prop :=
  ∀ c, (stick c).permits + (hold c .right).toNat + (hold (c + 4) .left).toNat = 1

section AddsUp

variable {stick stick' : Seat → Chopstick} {hold hold' : Seat → Side → Bool} {p : Seat} {sd : Side}

/-- **What leaves the semaphore is in somebody's hand**, if only one chopstick and one
hold change, and together they stay the same. -/
theorem AddsUp.move (h : AddsUp stick hold) {k : Chopstick}
    (hstick : stick' = Function.update stick (stickOf p sd) k)
    (hmoved : k.permits + (hold' p sd).toNat =
      (stick (stickOf p sd)).permits + (hold p sd).toNat)
    (hside : ∀ sd', sd' ≠ sd → hold' p sd' = hold p sd')
    (hother : ∀ q, q ≠ p → hold' q = hold q) : AddsUp stick' hold' := by
  intro c
  have hc := h c
  rw [hstick]
  cases sd with
  | right =>
      rw [stickOf_right] at hmoved ⊢
      by_cases hright : c = p
      · subst hright
        have hne : c + 4 ≠ c := fun h => seat_ne_succ c (add_four_eq.mp h)
        rw [Function.update_self, hother _ hne]
        omega
      · have hleft : hold' (c + 4) .left = hold (c + 4) .left := by
          by_cases hp : c + 4 = p
          · rw [hp, hside .left nofun]
          · rw [hother _ hp]
        rw [Function.update_of_ne hright, hother _ hright, hleft]
        exact hc
  | left =>
      rw [stickOf_left] at hmoved ⊢
      by_cases hleft : c = p + 1
      · subst hleft
        have hp : p + 1 + 4 = p := add_four_eq.mpr rfl
        rw [Function.update_self, hother _ (seat_ne_succ p).symm, hp]
        rw [hp] at hc
        omega
      · have hne : c + 4 ≠ p := fun h => hleft (add_four_eq.mp h)
        have hright : hold' c .right = hold c .right := by
          by_cases hp : c = p
          · rw [hp, hside .right nofun]
          · rw [hother _ hp]
        rw [Function.update_of_ne hleft, hother _ hne, hright]
        exact hc

theorem AddsUp.hold_eq_false (h : AddsUp stick hold) (hpos : (stick (stickOf p sd)).permits ≠ 0) :
    hold p sd = false := by
  refine Bool.eq_false_iff.mpr fun hhold => ?_
  cases sd with
  | right =>
      have hc := h p
      rw [hhold, Bool.toNat_true] at hc
      rw [stickOf_right] at hpos
      omega
  | left =>
      have hc := h (p + 1)
      rw [add_four_eq.mpr rfl, hhold, Bool.toNat_true] at hc
      rw [stickOf_left] at hpos
      omega

end AddsUp

def PermitsOk (s : Table) : Prop := AddsUp s.stick fun p => holds (s.pc p)

theorem PermitsOk.sum {s : Table} (h : PermitsOk s) (c : Seat) :
    (s.stick c).permits + (holds (s.pc c) .right).toNat + (holds (s.pc (c + 4)) .left).toNat = 1 :=
  h c

theorem permitsOk_setup : PermitsOk setup := by
  unfold PermitsOk AddsUp
  decide

theorem permitsOk_step {s s' : Table} {p : Seat} (hok : PermitsOk s)
    (hn : next s (.step p) = some s') : PermitsOk s' := by
  obtain ⟨k, x, hm, hstick, rfl, hother⟩ := step_cases hn
  obtain ⟨hmoved, hkept⟩ := moves_permits hm
  refine AddsUp.move hok hstick hmoved hkept fun q hq => ?_
  funext sd
  rw [hother q hq]
  split
  · exact holds_woken _ _ _ _
  · rfl

theorem permitsOk_wake {s s' : Table} {p : Seat} (hok : PermitsOk s)
    (hn : next s (.wake p) = some s') : PermitsOk s' := by
  obtain ⟨sd, hold, hstick, hnew, hother⟩ := wake_cases hn
  have hholds : (fun q => holds (s'.pc q)) = fun q => holds (s.pc q) := by
    funext q sd'
    by_cases hq : q = p
    · rw [hq, hnew, hold]
      rfl
    · rw [hother q hq]
  rw [PermitsOk, hstick, hholds]
  exact hok

theorem permitsOk_next {s s' : Table} {a : Label} (hok : PermitsOk s)
    (hn : next s a = some s') : PermitsOk s' := by
  cases a with
  | step p => exact permitsOk_step hok hn
  | wake p => exact permitsOk_wake hok hn

theorem reach_permitsOk {s : Table} (hs : machine.Reach s) : PermitsOk s := by
  refine hs.invariant (fun s h0 => ?_) fun s a s' hok _ hn => ?_
  · rw [show s = setup from h0]
    exact permitsOk_setup
  · exact permitsOk_next hok hn

/-! ## Results -/

/-- The holders of a chopstick are among its two neighbours. -/
theorem card_holders (s : Table) (c : Seat) : (holders s c).card =
    (holds (s.pc c) .right).toNat + (holds (s.pc (c + 4)) .left).toNat := by
  have hsplit : holders s c =
      (if holds (s.pc c) .right then {c} else ∅) ∪
        (if holds (s.pc (c + 4)) .left then {c + 4} else ∅) := by
    ext p
    rw [holders, Finset.mem_filter, Finset.mem_union]
    simp only [Finset.mem_univ, true_and, stickOf_right, stickOf_left]
    refine or_congr ?_ ?_
    · constructor
      · rintro ⟨rfl, h⟩
        simp [h]
      · intro h
        split at h
        · rw [Finset.mem_singleton.mp h]
          exact ⟨rfl, ‹_›⟩
        · simp at h
    · constructor
      · rintro ⟨rfl, h⟩
        have hp : p + 1 + 4 = p := add_four_eq.mpr rfl
        simp [hp, h]
      · intro h
        split at h
        · rw [Finset.mem_singleton.mp h]
          exact ⟨(add_four_eq.mp rfl).symm, ‹_›⟩
        · simp at h
  have hne : c ≠ c + 4 := fun h => seat_ne_succ c (add_four_eq.mp h.symm)
  rw [hsplit]
  cases holds (s.pc c) .right <;> cases holds (s.pc (c + 4)) .left <;>
    simp [Finset.card_pair hne]

theorem holds_of_dining {x : Pc} (h : dining x) (sd : Side) : holds x sd = true := by
  rcases h with rfl | rfl <;> rfl

/-- **Adjacent philosophers never eat together.** In every reachable state,
spurious wake-ups included, each semaphore's permits and holders add up to one,
so that two philosophers who share a chopstick are never both past their `acq`
calls and before their `rel` calls. -/
theorem permits_add_holders (s : Table) (hs : machine.Reach s) :
    (∀ c, (s.stick c).permits + (holders s c).card = 1) ∧
    ∀ p q sd sd', p ≠ q → stickOf p sd = stickOf q sd' →
      ¬ (dining (s.pc p) ∧ dining (s.pc q)) := by
  have hsum : ∀ c, (s.stick c).permits + (holders s c).card = 1 := by
    intro c
    have := (reach_permitsOk hs).sum c
    rw [card_holders]
    omega
  refine ⟨hsum, ?_⟩
  rintro p q sd sd' hpq hshare ⟨hp, hq⟩
  have hmem : ∀ r sd'', dining (s.pc r) → r ∈ holders s (stickOf r sd'') := by
    intro r sd'' hr
    refine Finset.mem_filter.mpr ⟨Finset.mem_univ r, ?_⟩
    cases sd'' with
    | right => exact Or.inl ⟨rfl, holds_of_dining hr _⟩
    | left => exact Or.inr ⟨rfl, holds_of_dining hr _⟩
  have htwo : 1 < (holders s (stickOf p sd)).card :=
    Finset.one_lt_card.mpr ⟨p, hmem p sd hp, q, hshare ▸ hmem q sd' hq, hpq⟩
  have := hsum (stickOf p sd)
  omega

/-- The first philosopher, who owns both of its chopsticks from the start, goes to eat. -/
def firstEats : List Label := List.replicate 9 (.step 0)

/-- It then holds both semaphores, of which no permit is left. -/
theorem permits_add_holders_eating : ∃ s, machine.Reach s ∧ dining (s.pc 0) ∧
    (∀ c, (s.stick c).permits + (holders s c).card = 1) ∧
    (s.stick 0).permits = 0 ∧ (s.stick 1).permits = 0 ∧ ¬ dining (s.pc 1) ∧
    ¬ dining (s.pc 4) := by
  have hrun : (machine.replay setup firstEats).map
      (fun t => (t.pc 0, (t.stick 0).permits, (t.stick 1).permits)) = some (.eating, 0, 0) := by
    decide +kernel
  obtain ⟨s, hs, hend⟩ := Option.map_eq_some_iff.mp hrun
  obtain ⟨hpc, hright, hleft⟩ : s.pc 0 = .eating ∧ (s.stick 0).permits = 0 ∧
      (s.stick 1).permits = 0 := by
    simpa using hend
  have hreach : machine.Reach s := Machine.Reach.replay (.init rfl) hs
  have hdine : dining (s.pc 0) := .inl hpc
  obtain ⟨hsum, hexclude⟩ := permits_add_holders s hreach
  refine ⟨s, hreach, hdine, hsum, hright, hleft, fun h => ?_, fun h => ?_⟩
  · exact hexclude 0 1 .left .right (by decide) rfl ⟨hdine, h⟩
  · exact hexclude 0 4 .right .left (by decide) rfl ⟨hdine, h⟩

end OsProjects.Philosophers
