import OsProjects.Philosophers.Interrupts

/-!
# Permits that are lost

When `Thread.sleep` in `eat` throws, the two calls of `rel` are skipped. A thread
whose `acq` calls have thrown as well leaves with nothing; but one that has acquired
and is interrupted before it can release (`Pc.exposed`) takes what it has with it.

`hold` is a set of books: who has the permits that are not in the semaphores
(`Account`). Steps keep them (`carries_next`), and what an interrupted thread has
beyond its next release it has for good (`Lost`). `permits_kept_iff`: once no thread
is inside `eat` or `grabChopstick`, every semaphore has its permit exactly if every
interrupt was `Timely`.
-/

namespace OsProjects.Philosophers

open Framework

/-! ## Permits -/

/-- What a thread has of its chopstick on the given side, if no interrupt has found it
exposed: an interrupted one comes to `Thread.sleep` with nothing. -/
def keeps (interrupted : Bool) (x : Pc) (sd : Side) : Bool :=
  holds x sd && !(interrupted && x.exposed)

/-- On the way to a release of what it has acquired. -/
def Pc.releases : Pc → Bool
  | .grab _ .take | .grab _ .release | .relRight | .relLeft => true
  | _ => false

/-- `hold` says who has the permits that are not in the semaphores. -/
structure Account (s : Room) (hold : Seat → Side → Bool) : Prop where
  sum : AddsUp s.table.stick hold
  kept : ∀ p sd, keeps (s.interrupted p) (s.table.pc p) sd = true → hold p sd = true

/-- Nobody has any other permit. -/
def Exact (s : Room) (hold : Seat → Side → Bool) : Prop :=
  ∀ p sd, hold p sd = true → keeps (s.interrupted p) (s.table.pc p) sd = true

/-- `p` has a permit that it will not release. -/
structure Lost (s : Room) (hold : Seat → Side → Bool) (p : Seat) (sd : Side) : Prop where
  interrupted : s.interrupted p = true
  hold : hold p sd = true
  passed : (s.table.pc p).releases = false

section Points

variable {x x' : Pc} {i : Bool}

theorem keeps_eq_holds (h : i = true → x.exposed = false) (sd : Side) :
    keeps i x sd = holds x sd := by
  cases i with
  | false => exact Bool.and_true _
  | true => rw [keeps, h rfl, Bool.and_false, Bool.not_false, Bool.and_true]

theorem keeps_interrupted {sd : Side} (h : keeps true x sd = true) : keeps i x sd = true := by
  cases i with
  | false => exact (Bool.and_true _).trans (Bool.and_eq_true_iff.mp h).1
  | true => exact h

theorem exposed_throws (hthrow : afterThrow x = none) : x.exposed = false := by
  cases x with
  | acqLeft | eating => cases hthrow
  | _ => rfl

theorem moves_exposed {p : Seat} {k k' : Chopstick} (h : Moves p k x k' x')
    (hthrow : afterThrow x = none) : x'.exposed = false := by
  cases h with
  | acqRight | acqLeft => cases hthrow
  | grabExit sd | putExit sd => cases sd <;> rfl
  | _ => rfl

/-- A thread that is interrupted and has nothing to release does not come to have. -/
theorem moves_releases {p : Seat} {k k' : Chopstick} (h : Moves p k x k' x')
    (hthrow : afterThrow x = none) (hx : x.releases = false) :
    x'.releases = false ∧ ∀ sd, holds x' sd = holds x sd := by
  cases h with
  | think | grabAcquire | grabWait | acqRight | acqLeft | eating => cases hthrow
  | grabTake | grabRelease | relRight | relLeft => cases hx
  | grabExit sd | putExit sd => cases sd <;> exact ⟨rfl, fun sd' => by cases sd' <;> rfl⟩
  | _ => exact ⟨rfl, fun sd' => by cases sd' <;> rfl⟩

/-- A blocking call that throws, other than the one in `grabChopstick`: what an
interrupted thread has at such points is nothing. -/
theorem throw_keeps (h : afterThrow x = some x') (hacq : ∀ sd, x ≠ .grab sd .acquire) :
    (∀ sd, keeps true x sd = false ∧ keeps true x' sd = false) ∧ x'.releases = false := by
  unfold afterThrow at h
  split at h
  case h_2 sd => exact absurd rfl (hacq sd)
  all_goals first
    | cases h; exact ⟨fun sd => by cases sd <;> exact ⟨rfl, rfl⟩, rfl⟩
    | cases h

/-- Leaving the wait set. -/
theorem other_keeps (h : x' = x ∨ ∃ sd, x = .grab sd .waiting ∧ x' = .grab sd .reenter)
    (i : Bool) : (∀ sd, keeps i x' sd = keeps i x sd) ∧ x'.releases = x.releases := by
  rcases h with rfl | ⟨sd', rfl, rfl⟩
  · exact ⟨fun _ => rfl, rfl⟩
  · exact ⟨fun _ => rfl, rfl⟩

end Points

/-- What a step makes of an account. -/
structure Carries (s : Room) (a : Move) (s' : Room) (hold hold' : Seat → Side → Bool) : Prop where
  account : Account s' hold'
  exact : Timely s a → Exact s hold → Exact s' hold'
  lost : ∀ p sd, Lost s hold p sd → Lost s' hold' p sd

section Carries

variable {s s' : Room} {a : Move} {p : Seat} {hold hold' : Seat → Side → Bool}

/-- A step concerns the thread that takes it; of the others it lets some leave the wait
set. -/
structure Apart (p : Seat) (s s' : Room) (hold hold' : Seat → Side → Bool) : Prop where
  interrupted : ∀ q, q ≠ p → s'.interrupted q = s.interrupted q
  pc : ∀ q, q ≠ p → s'.table.pc q = s.table.pc q ∨
    ∃ sd, s.table.pc q = .grab sd .waiting ∧ s'.table.pc q = .grab sd .reenter
  hold : ∀ q, q ≠ p → hold' q = hold q

theorem Apart.keeps (h : Apart p s s' hold hold') {q : Seat} (hq : q ≠ p) (sd : Side) :
    keeps (s'.interrupted q) (s'.table.pc q) sd = keeps (s.interrupted q) (s.table.pc q) sd := by
  rw [h.interrupted q hq]
  exact (other_keeps (h.pc q hq) _).1 sd

/-- **What has to be shown of a step** is about the thread that takes it. -/
theorem Account.carries (hacc : Account s hold) (hapart : Apart p s s' hold hold')
    (hsum : AddsUp s'.table.stick hold')
    (hkept : ∀ sd, keeps (s'.interrupted p) (s'.table.pc p) sd = true → hold' p sd = true)
    (hexact : Timely s a → Exact s hold →
      ∀ sd, hold' p sd = true → keeps (s'.interrupted p) (s'.table.pc p) sd = true)
    (hlost : ∀ sd, Lost s hold p sd → Lost s' hold' p sd) : Carries s a s' hold hold' := by
  refine ⟨⟨hsum, fun q sd hkeeps => ?_⟩, fun htimely hbefore q sd hhold => ?_, fun q sd h => ?_⟩
  · by_cases hq : q = p
    · subst hq
      exact hkept sd hkeeps
    · rw [hapart.hold q hq]
      rw [hapart.keeps hq] at hkeeps
      exact hacc.kept q sd hkeeps
  · by_cases hq : q = p
    · subst hq
      exact hexact htimely hbefore sd hhold
    · rw [hapart.hold q hq] at hhold
      rw [hapart.keeps hq]
      exact hbefore q sd hhold
  · by_cases hq : q = p
    · subst hq
      exact hlost sd h
    · refine ⟨(hapart.interrupted q hq).trans h.interrupted, ?_, ?_⟩
      · rw [hapart.hold q hq]
        exact h.hold
      · exact (other_keeps (hapart.pc q hq) true).2.trans h.passed

theorem carries_throw {x : Pc} (hacc : Account s hold) (hint : s.interrupted p = true)
    (hx : afterThrow (s.table.pc p) = some x) (hacq : ∀ sd, s.table.pc p ≠ .grab sd .acquire) :
    Carries s (.step p) ⟨s.table.goto p x, s.interrupted⟩ hold hold := by
  obtain ⟨hnothing, hreleases⟩ := throw_keeps hx hacq
  refine hacc.carries (p := p) ⟨fun _ _ => rfl, fun q hq => .inl (goto_other _ x hq),
    fun _ _ => rfl⟩ hacc.sum (fun sd hkeeps => ?_) (fun _ hexact sd hhold => ?_) fun sd hlost => ?_
  · rw [goto_self, hint, (hnothing sd).2] at hkeeps
    cases hkeeps
  · have hbefore := hexact p sd hhold
    rw [hint, (hnothing sd).1] at hbefore
    cases hbefore
  · refine ⟨hint, hlost.hold, ?_⟩
    rw [goto_self]
    exact hreleases

theorem carries_wake {t : Table} (hacc : Account s hold) (hn : next s.table (.wake p) = some t) :
    Carries s (.wake p) ⟨t, s.interrupted⟩ hold hold := by
  obtain ⟨sd', hwait, hstick, hnew, hothers⟩ := wake_cases hn
  obtain ⟨hkeeps, hreleases⟩ := other_keeps (.inr ⟨sd', hwait, hnew⟩) (s.interrupted p)
  refine hacc.carries (p := p) ⟨fun _ _ => rfl, fun q hq => .inl (hothers q hq), fun _ _ => rfl⟩
    ?_ (fun sd h => hacc.kept p sd ((hkeeps sd).symm.trans h))
    (fun _ hexact sd hhold => (hkeeps sd).trans (hexact p sd hhold))
    fun sd hlost => ⟨hlost.interrupted, hlost.hold, hreleases.trans hlost.passed⟩
  rw [hstick]
  exact hacc.sum

theorem carries_interrupt (hacc : Account s hold) :
    Carries s (.interrupt p) (s.interrupt p) hold hold := by
  refine hacc.carries (p := p) ⟨fun q hq => interrupt_other s hq, fun _ _ => .inl rfl,
    fun _ _ => rfl⟩ hacc.sum (fun sd hkeeps => hacc.kept p sd ?_)
    (fun htimely hexact sd hhold => ?_)
    fun sd hlost => ⟨interrupt_self s p, hlost.hold, hlost.passed⟩
  · rw [interrupt_self] at hkeeps
    exact keeps_interrupted hkeeps
  · have hbefore := hexact p sd hhold
    rw [interrupt_self]
    rcases htimely with hint | hsafe
    · rw [hint] at hbefore
      exact hbefore
    · exact (keeps_eq_holds (fun _ => hsafe) sd).trans
        ((keeps_eq_holds (fun _ => hsafe) sd).symm.trans hbefore)

/-- A thread that moves a permit has it on the books just if it has it. -/
theorem Account.held {k : Chopstick} {x : Pc} (hacc : Account s hold)
    (hm : Moves p (s.table.stick (s.table.focus p)) (s.table.pc p) k x)
    (hthrow : s.interrupted p = true → afterThrow (s.table.pc p) = none)
    (hne : holds x (s.table.pc p).side ≠ holds (s.table.pc p) (s.table.pc p).side) :
    hold p (s.table.pc p).side = holds (s.table.pc p) (s.table.pc p).side := by
  cases hwas : holds (s.table.pc p) (s.table.pc p).side with
  | true =>
      refine hacc.kept p _ ?_
      rw [keeps_eq_holds fun hint => exposed_throws (hthrow hint)]
      exact hwas
  | false =>
      -- there was a permit to take, so that nobody had it
      refine hacc.sum.hold_eq_false fun hzero => ?_
      have hmoved := (moves_permits hm).1
      rw [hwas] at hne hmoved
      rw [Bool.eq_true_of_not_eq_false hne, Table.focus, hzero] at hmoved
      cases hmoved

/-- What `p` has on the books when it has come to `x`: what it has moved, and otherwise
what it had. -/
def ownHold (hold : Seat → Side → Bool) (p : Seat) (old x : Pc) (sd : Side) : Bool :=
  if holds x sd = holds old sd then hold p sd else holds x sd

theorem ownHold_same {old x : Pc} {sd : Side} (h : holds x sd = holds old sd) :
    ownHold hold p old x sd = hold p sd := if_pos h

theorem ownHold_moved {old x : Pc} {sd : Side} (h : holds x sd ≠ holds old sd) :
    ownHold hold p old x sd = holds x sd := if_neg h

/-- A step without an exception: a permit that is moved goes between the semaphore and
the thread, on the books as well. -/
theorem carries_step {t : Table} (hacc : Account s hold)
    (hthrow : s.interrupted p = true → afterThrow (s.table.pc p) = none)
    (hn : next s.table (.step p) = some t) :
    ∃ hold', Carries s (.step p) ⟨t, s.interrupted⟩ hold hold' := by
  obtain ⟨k, x, hm, hstick, rfl, hothers⟩ := step_cases hn
  obtain ⟨hmoved, hkept⟩ := moves_permits hm
  have hbefore := keeps_eq_holds fun hint => exposed_throws (hthrow hint)
  have hafter := keeps_eq_holds fun hint => moves_exposed hm (hthrow hint)
  have hother : ∀ q, q ≠ p →
      Function.update hold p (ownHold hold p (s.table.pc p) (t.pc p)) q = hold q :=
    fun q hq => Function.update_of_ne hq _ hold
  refine ⟨Function.update hold p (ownHold hold p (s.table.pc p) (t.pc p)),
    hacc.carries (p := p) ⟨fun _ _ => rfl, fun q hq => other_cases (hothers q hq), hother⟩
      (hacc.sum.move hstick ?_ (fun sd hsd => ?_) hother) (fun sd hkeeps => ?_)
      (fun _ hexact sd hhold => ?_) fun sd hlost => ?_⟩
  · rw [Function.update_self]
    by_cases heq : holds (t.pc p) (s.table.pc p).side = holds (s.table.pc p) (s.table.pc p).side
    · rw [heq] at hmoved
      rw [ownHold_same heq]
      exact congrArg (· + _) (Nat.add_right_cancel hmoved)
    · rw [ownHold_moved heq, hacc.held hm hthrow heq]
      exact hmoved
  · rw [Function.update_self]
    exact ownHold_same (hkept sd hsd)
  · rw [Function.update_self]
    have hholds : holds (t.pc p) sd = true := (hafter sd).symm.trans hkeeps
    by_cases heq : holds (t.pc p) sd = holds (s.table.pc p) sd
    · rw [ownHold_same heq]
      exact hacc.kept p sd ((hbefore sd).trans (heq.symm.trans hholds))
    · rw [ownHold_moved heq]
      exact hholds
  · rw [Function.update_self] at hhold
    refine (hafter sd).trans ?_
    by_cases heq : holds (t.pc p) sd = holds (s.table.pc p) sd
    · rw [ownHold_same heq] at hhold
      rw [heq, ← hbefore sd]
      exact hexact p sd hhold
    · rw [ownHold_moved heq] at hhold
      exact hhold
  · obtain ⟨hreleases, heq⟩ := moves_releases hm (hthrow hlost.interrupted) hlost.passed
    refine ⟨hlost.interrupted, ?_, hreleases⟩
    rw [Function.update_self, ownHold_same (heq sd)]
    exact hlost.hold

/-- The loop of `grabChopstick` is entered by an interrupted thread for good. -/
theorem stuck_of_acquire {sd : Side} (hok : RoomOk s) (hint : s.interrupted p = true)
    (hpc : s.table.pc p = .grab sd .acquire) : Stuck s p sd := by
  have hseen := hok.seen p
  rw [Table.focus, hpc] at hseen
  exact ⟨hint, ⟨_, hpc, rfl⟩, hseen.1⟩

/-- **Every step keeps the books**, unless some thread is stuck. -/
theorem carries_next (hok : RoomOk s) (hacc : Account s hold) (h : RoomStep s a s') :
    (∃ p sd, Stuck s p sd) ∨ ∃ hold', Carries s a s' hold hold' := by
  cases h with
  | throw p x hint hx =>
      by_cases hacq : ∃ sd, s.table.pc p = .grab sd .acquire
      · obtain ⟨sd, hpc⟩ := hacq
        exact .inl ⟨p, sd, stuck_of_acquire hok hint hpc⟩
      · exact .inr ⟨hold, carries_throw hacc hint hx fun sd hpc => hacq ⟨sd, hpc⟩⟩
  | step p t hthrow hn => exact .inr (carries_step hacc hthrow hn)
  | wake p t hn => exact .inr ⟨hold, carries_wake hacc hn⟩
  | interrupt p => exact .inr ⟨hold, carries_interrupt hacc⟩

end Carries

/-! ## Whole runs -/

/-- Nothing is lost, or some thread never leaves `grabChopstick`. -/
structure Kept (s : Room) : Prop where
  ok : RoomOk s
  books : (∃ p sd, Stuck s p sd) ∨ ∃ hold, Account s hold ∧ Exact s hold

/-- Something is lost, or some thread never leaves `grabChopstick`. -/
structure Doomed (s : Room) : Prop where
  ok : RoomOk s
  books : (∃ p sd, Stuck s p sd) ∨ ∃ hold, Account s hold ∧ ∃ p sd, Lost s hold p sd

section Runs

variable {s s' : Room} {a : Move}

theorem kept_emptyRoom : Kept emptyRoom := by
  refine ⟨⟨monitorOk_setup, seenOk_setup⟩, .inr ⟨fun _ _ => false, ⟨?_, ?_⟩, ?_⟩⟩
  · unfold AddsUp
    decide
  · intro p sd hkeeps
    cases sd <;> cases hkeeps
  · intro p sd hhold
    cases hhold

theorem Kept.next (h : Kept s) (htimely : Timely s a) (hstep : RoomStep s a s') : Kept s' := by
  refine ⟨h.ok.next hstep, ?_⟩
  rcases h.books with ⟨p, sd, hstuck⟩ | ⟨hold, hacc, hexact⟩
  · exact .inl ⟨p, sd, hstuck.next h.ok hstep⟩
  · rcases carries_next h.ok hacc hstep with ⟨p, sd, hstuck⟩ | ⟨hold', hcarries⟩
    · exact .inl ⟨p, sd, hstuck.next h.ok hstep⟩
    · exact .inr ⟨hold', hcarries.account, hcarries.exact htimely hexact⟩

theorem Doomed.next (h : Doomed s) (hstep : RoomStep s a s') : Doomed s' := by
  refine ⟨h.ok.next hstep, ?_⟩
  rcases h.books with ⟨p, sd, hstuck⟩ | ⟨hold, hacc, p, sd, hlost⟩
  · exact .inl ⟨p, sd, hstuck.next h.ok hstep⟩
  · rcases carries_next h.ok hacc hstep with ⟨q, sd', hstuck⟩ | ⟨hold', hcarries⟩
    · exact .inl ⟨q, sd', hstuck.next h.ok hstep⟩
    · exact .inr ⟨hold', hcarries.account, p, sd, hcarries.lost p sd hlost⟩

/-- An exposed thread has a permit, and will not come to its `rel`. -/
theorem Kept.untimely (h : Kept s) (hnot : ¬ Timely s a) (hstep : RoomStep s a s') :
    Doomed s' := by
  refine ⟨h.ok.next hstep, ?_⟩
  rcases h.books with ⟨p, sd, hstuck⟩ | ⟨hold, hacc, -⟩
  · exact .inl ⟨p, sd, hstuck.next h.ok hstep⟩
  · cases hstep with
    | interrupt p =>
        obtain ⟨hint, hexposed⟩ := not_or.mp hnot
        have hkeeps : keeps (s.interrupted p) (s.table.pc p) .right = true ∧
            (s.table.pc p).releases = false := by
          rw [Bool.eq_false_of_not_eq_true hint]
          revert hexposed
          cases s.table.pc p with
          | acqLeft | eating => exact fun _ => ⟨rfl, rfl⟩
          | _ => exact fun hexposed => absurd rfl hexposed
        exact .inr ⟨hold, carries_interrupt hacc |>.account, p, .right,
          ⟨interrupt_self s p, hacc.kept p .right hkeeps.1, hkeeps.2⟩⟩
    | _ => exact absurd trivial hnot

/-- Outside, no thread has a permit. -/
theorem keeps_outside {x : Pc} {i : Bool} {sd : Side} (h : x.inside = false) :
    keeps i x sd = false := by
  cases x with
  | grab sd' a =>
      cases a with
      | enter => rfl
      | _ => cases h
  | acqLeft | eating | relRight | relLeft => cases h
  | _ => cases sd <;> rfl

theorem Kept.quiet (h : Kept s) (hquiet : Quiet s) (c : Seat) :
    (s.table.stick c).permits = 1 := by
  rcases h.books with ⟨p, sd, hstuck⟩ | ⟨hold, hacc, hexact⟩
  · exact absurd hquiet hstuck.not_quiet
  · have hnone : ∀ p sd, hold p sd = false := by
      refine fun p sd => Bool.eq_false_iff.mpr fun hhold => ?_
      have hkeeps := hexact p sd hhold
      rw [keeps_outside (hquiet p)] at hkeeps
      cases hkeeps
    have hsum := hacc.sum c
    rw [hnone, hnone] at hsum
    exact hsum

theorem Doomed.quiet (h : Doomed s) (hquiet : Quiet s) :
    ∃ c, (s.table.stick c).permits = 0 := by
  rcases h.books with ⟨p, sd, hstuck⟩ | ⟨hold, hacc, p, sd, hlost⟩
  · exact absurd hquiet hstuck.not_quiet
  · refine ⟨stickOf p sd, by_contra fun hpos => ?_⟩
    have hhold := hlost.hold
    rw [hacc.sum.hold_eq_false hpos] at hhold
    cases hhold

end Runs

/-- Philosopher 0, who owns both of its chopsticks, goes to the table and to `eat`. -/
def toTable : List Move := List.replicate 9 (.step 0)

end OsProjects.Philosophers
