import OsProjects.Framework.Machine

/-!
# The dining philosophers

`philosophers.java`: five threads, five chopsticks, each chopstick with an
owner (`mainuser`), a `clean` flag, a semaphore and the monitor of its
`synchronized` methods. A philosopher is named by its seat; the names of the
source are compared by reference, so they are just that.

Every semaphore operation, every entry, exit, `wait` and `notifyAll` of a
monitor and every other step of `run()` is one step. A step concerns one
chopstick: `act` says what it does to that chopstick and where the thread goes,
and blocks by being `none`. Threads are not interrupted; a waiting thread may
wake up spuriously.
-/

namespace OsProjects.Philosophers

open Framework

/-! ## Chopsticks and threads -/

/-- Philosophers and chopsticks, by number. -/
abbrev Seat := Fin 5

/-- Numerals name seats. -/
instance seat_neZero : NeZero 5 := ⟨by decide⟩

structure Chopstick where
  mainuser : Seat
  permits : Nat
  clean : Bool
  monitor : Option Seat
deriving DecidableEq, Repr

inductive Side where
  | right
  | left
deriving DecidableEq, Repr

/-- `new Philosopher(name, chopsticks[j], chopsticks[(j + 1) % 5])`. -/
def stickOf (p : Seat) : Side → Seat
  | .right => p
  | .left => p + 1

/-- Inside `grabChopstick`. -/
inductive Grab where
  | enter      -- `synchronized`
  | test       -- `while (this.mainuser != user)`
  | look       -- `if (!clean)`
  | acquire    -- `sem.acquire()`
  | take       -- `clean = true; mainuser = user`
  | release    -- `sem.release()`
  | wait       -- `wait()`
  | waiting    -- in the wait set
  | reenter    -- woken, to get the monitor back
  | exit       -- leaving the method
deriving DecidableEq, Repr

/-- Inside `setChopstick`. -/
inductive Put where
  | enter
  | clean      -- `clean = false`
  | notify     -- `notifyAll()`
  | exit
deriving DecidableEq, Repr

/-- Where a philosopher is in `run()`: what its next step is. -/
inductive Pc where
  | think
  | grab (sd : Side) (a : Grab)
  | acqRight
  | acqLeft
  | eating
  | relRight
  | relLeft
  | put (sd : Side) (a : Put)
deriving DecidableEq, Repr

/-- The side the next step is about. -/
def Pc.side : Pc → Side
  | .grab sd _ => sd
  | .put sd _ => sd
  | .acqLeft => .left
  | .relLeft => .left
  | _ => .right

/-! ## Steps -/

/-- `monitor` is free for `p` to enter. -/
def Chopstick.enter (k : Chopstick) (p : Seat) (x : Pc) : Option (Chopstick × Pc) :=
  match k.monitor with
  | none => some ({ k with monitor := some p }, x)
  | some _ => none

def Chopstick.leave (k : Chopstick) : Chopstick := { k with monitor := none }

/-- `sem.acquire()`. -/
def Chopstick.acquire (k : Chopstick) (x : Pc) : Option (Chopstick × Pc) :=
  if k.permits = 0 then none else some ({ k with permits := k.permits - 1 }, x)

/-- `sem.release()`. -/
def Chopstick.release (k : Chopstick) : Chopstick := { k with permits := k.permits + 1 }

/-- After `grabChopstick` on one side. -/
def afterGrab : Side → Pc
  | .right => .grab .left .enter
  | .left => .acqRight

/-- After `setChopstick` on one side. -/
def afterPut : Side → Pc
  | .right => .put .left .enter
  | .left => .think

/-- A step of `grabChopstick(p)` on chopstick `k`. -/
def grabAct (p : Seat) (k : Chopstick) (sd : Side) : Grab → Option (Chopstick × Pc)
  | .enter => k.enter p (.grab sd .test)
  | .test => some (k, .grab sd (if k.mainuser = p then .exit else .look))
  | .look => some (k, .grab sd (if k.clean then .wait else .acquire))
  | .acquire => k.acquire (.grab sd .take)
  | .take => some ({ k with clean := true, mainuser := p }, .grab sd .release)
  | .release => some (k.release, .grab sd .test)
  | .wait => some (k.leave, .grab sd .waiting)
  | .waiting => none
  | .reenter => k.enter p (.grab sd .test)
  | .exit => some (k.leave, afterGrab sd)

/-- A step of `setChopstick()` on chopstick `k`. -/
def putAct (p : Seat) (k : Chopstick) (sd : Side) : Put → Option (Chopstick × Pc)
  | .enter => k.enter p (.put sd .clean)
  | .clean => some ({ k with clean := false }, .put sd .notify)
  | .notify => some (k, .put sd .exit)
  | .exit => some (k.leave, afterPut sd)

/-- What the next step of `p` does to the chopstick it is about, and where it
goes; `none` is blocked. -/
def act (p : Seat) (k : Chopstick) : Pc → Option (Chopstick × Pc)
  | .think => some (k, .grab .right .enter)
  | .grab sd a => grabAct p k sd a
  | .acqRight => k.acquire .acqLeft
  | .acqLeft => k.acquire .eating
  | .eating => some (k, .relRight)
  | .relRight => some (k.release, .relLeft)
  | .relLeft => some (k.release, .put .right .enter)
  | .put sd a => putAct p k sd a

structure Table where
  stick : Seat → Chopstick
  pc : Seat → Pc

/-- The chopstick the next step of `p` is about. -/
def Table.focus (s : Table) (p : Seat) : Seat := stickOf p (s.pc p).side

/-- `notifyAll()`: whoever waits for chopstick `c` is woken. -/
def woken (c q : Seat) (x : Pc) : Pc :=
  match x with
  | .grab sd .waiting => if stickOf q sd = c then .grab sd .reenter else x
  | _ => x

def Pc.notifies : Pc → Bool
  | .put _ .notify => true
  | _ => false

inductive Label where
  | step (p : Seat)
  | wake (p : Seat)   -- spurious
deriving DecidableEq, Repr

def next (s : Table) : Label → Option Table
  | .step p =>
      let c := s.focus p
      match act p (s.stick c) (s.pc p) with
      | none => none
      | some (k, x) =>
          let pc := Function.update s.pc p x
          some ⟨Function.update s.stick c k,
            if (s.pc p).notifies then fun q => woken c q (pc q) else pc⟩
  | .wake p =>
      match s.pc p with
      | .grab sd .waiting => some { s with pc := Function.update s.pc p (.grab sd .reenter) }
      | _ => none

/-- Owners as the constructor sets them: the lower of `i` and `(i + 4) % 5`. -/
def firstOwner (i : Seat) : Seat := if i < i + 4 then i else i + 4

def setup : Table where
  stick := fun i => ⟨firstOwner i, 1, false, none⟩
  pc := fun _ => .think

def machine : Machine Table Label := ⟨fun s => s = setup, next⟩

/-! ## Two seats at one chopstick -/

/-- Chopstick `c` is `p`'s on side `sd`. -/
theorem stickOf_right (p : Seat) : stickOf p .right = p := rfl

theorem stickOf_left (p : Seat) : stickOf p .left = p + 1 := rfl

theorem seat_ne_succ (p : Seat) : p ≠ p + 1 := by
  revert p
  decide

theorem seat_succ_inj {p q : Seat} (h : p + 1 = q + 1) : p = q := by
  revert p q
  decide

/-- The philosopher on whose left chopstick `c` is sits at `c + 4`. -/
theorem add_four_eq {c p : Seat} : c + 4 = p ↔ c = p + 1 := by
  revert c p
  decide

/-- Neighbours share a chopstick on opposite sides. -/
theorem shared_sides {p q : Seat} {sd sd' : Side} (hpq : p ≠ q)
    (h : stickOf p sd = stickOf q sd') :
    (sd = .right ∧ sd' = .left ∧ p = q + 1) ∨ (sd = .left ∧ sd' = .right ∧ q = p + 1) := by
  cases sd with
  | right =>
      cases sd' with
      | right => exact absurd h hpq
      | left => exact Or.inl ⟨rfl, rfl, h⟩
  | left =>
      cases sd' with
      | right => exact Or.inr ⟨rfl, rfl, h.symm⟩
      | left => exact absurd (seat_succ_inj h) hpq

theorem stickOf_inj {p : Seat} {sd sd' : Side} (h : stickOf p sd = stickOf p sd') :
    sd = sd' := by
  cases sd <;> cases sd'
  · rfl
  · exact absurd h (seat_ne_succ p)
  · exact absurd h.symm (seat_ne_succ p)
  · rfl

/-! ## What a step does -/

/-- Everything a step of `p` can do to the chopstick it is about. -/
inductive Moves (p : Seat) (k : Chopstick) : Pc → Chopstick → Pc → Prop where
  | think : Moves p k .think k (.grab .right .enter)
  | grabEnter (sd : Side) : k.monitor = none →
      Moves p k (.grab sd .enter) { k with monitor := some p } (.grab sd .test)
  | grabOwn (sd : Side) : k.mainuser = p →
      Moves p k (.grab sd .test) k (.grab sd .exit)
  | grabOther (sd : Side) : k.mainuser ≠ p →
      Moves p k (.grab sd .test) k (.grab sd .look)
  | grabClean (sd : Side) : k.clean = true →
      Moves p k (.grab sd .look) k (.grab sd .wait)
  | grabDirty (sd : Side) : k.clean = false →
      Moves p k (.grab sd .look) k (.grab sd .acquire)
  | grabAcquire (sd : Side) : k.permits ≠ 0 →
      Moves p k (.grab sd .acquire) { k with permits := k.permits - 1 } (.grab sd .take)
  | grabTake (sd : Side) :
      Moves p k (.grab sd .take) { k with clean := true, mainuser := p } (.grab sd .release)
  | grabRelease (sd : Side) :
      Moves p k (.grab sd .release) { k with permits := k.permits + 1 } (.grab sd .test)
  | grabWait (sd : Side) :
      Moves p k (.grab sd .wait) { k with monitor := none } (.grab sd .waiting)
  | grabReenter (sd : Side) : k.monitor = none →
      Moves p k (.grab sd .reenter) { k with monitor := some p } (.grab sd .test)
  | grabExit (sd : Side) :
      Moves p k (.grab sd .exit) { k with monitor := none } (afterGrab sd)
  | acqRight : k.permits ≠ 0 →
      Moves p k .acqRight { k with permits := k.permits - 1 } .acqLeft
  | acqLeft : k.permits ≠ 0 →
      Moves p k .acqLeft { k with permits := k.permits - 1 } .eating
  | eating : Moves p k .eating k .relRight
  | relRight :
      Moves p k .relRight { k with permits := k.permits + 1 } .relLeft
  | relLeft :
      Moves p k .relLeft { k with permits := k.permits + 1 } (.put .right .enter)
  | putEnter (sd : Side) : k.monitor = none →
      Moves p k (.put sd .enter) { k with monitor := some p } (.put sd .clean)
  | putClean (sd : Side) :
      Moves p k (.put sd .clean) { k with clean := false } (.put sd .notify)
  | putNotify (sd : Side) : Moves p k (.put sd .notify) k (.put sd .exit)
  | putExit (sd : Side) :
      Moves p k (.put sd .exit) { k with monitor := none } (afterPut sd)

theorem enter_eq_some {k k' : Chopstick} {p : Seat} {x x' : Pc}
    (h : k.enter p x = some (k', x')) :
    k.monitor = none ∧ k' = { k with monitor := some p } ∧ x' = x := by
  unfold Chopstick.enter at h
  split at h
  · rename_i hfree
    obtain ⟨rfl, rfl⟩ := Prod.mk.inj (Option.some.inj h)
    exact ⟨hfree, rfl, rfl⟩
  · cases h

theorem acquire_eq_some {k k' : Chopstick} {x x' : Pc}
    (h : k.acquire x = some (k', x')) :
    k.permits ≠ 0 ∧ k' = { k with permits := k.permits - 1 } ∧ x' = x := by
  unfold Chopstick.acquire at h
  split at h
  · cases h
  · obtain ⟨rfl, rfl⟩ := Prod.mk.inj (Option.some.inj h)
    exact ⟨‹_›, rfl, rfl⟩

theorem grabAct_moves {p : Seat} {k k' : Chopstick} {sd : Side} {a : Grab} {x' : Pc}
    (h : grabAct p k sd a = some (k', x')) : Moves p k (.grab sd a) k' x' := by
  cases a with
  | enter =>
      obtain ⟨hfree, rfl, rfl⟩ := enter_eq_some h
      exact .grabEnter sd hfree
  | test =>
      obtain ⟨rfl, rfl⟩ := Prod.mk.inj (Option.some.inj h)
      by_cases hown : k.mainuser = p
      · rw [if_pos hown]
        exact .grabOwn sd hown
      · rw [if_neg hown]
        exact .grabOther sd hown
  | look =>
      obtain ⟨rfl, rfl⟩ := Prod.mk.inj (Option.some.inj h)
      cases hclean : k.clean with
      | true => exact .grabClean sd hclean
      | false => exact .grabDirty sd hclean
  | acquire =>
      obtain ⟨hpos, rfl, rfl⟩ := acquire_eq_some h
      exact .grabAcquire sd hpos
  | take =>
      obtain ⟨rfl, rfl⟩ := Prod.mk.inj (Option.some.inj h)
      exact .grabTake sd
  | release =>
      obtain ⟨rfl, rfl⟩ := Prod.mk.inj (Option.some.inj h)
      exact .grabRelease sd
  | wait =>
      obtain ⟨rfl, rfl⟩ := Prod.mk.inj (Option.some.inj h)
      exact .grabWait sd
  | waiting => cases h
  | reenter =>
      obtain ⟨hfree, rfl, rfl⟩ := enter_eq_some h
      exact .grabReenter sd hfree
  | exit =>
      obtain ⟨rfl, rfl⟩ := Prod.mk.inj (Option.some.inj h)
      exact .grabExit sd

theorem putAct_moves {p : Seat} {k k' : Chopstick} {sd : Side} {a : Put} {x' : Pc}
    (h : putAct p k sd a = some (k', x')) : Moves p k (.put sd a) k' x' := by
  cases a with
  | enter =>
      obtain ⟨hfree, rfl, rfl⟩ := enter_eq_some h
      exact .putEnter sd hfree
  | clean =>
      obtain ⟨rfl, rfl⟩ := Prod.mk.inj (Option.some.inj h)
      exact .putClean sd
  | notify =>
      obtain ⟨rfl, rfl⟩ := Prod.mk.inj (Option.some.inj h)
      exact .putNotify sd
  | exit =>
      obtain ⟨rfl, rfl⟩ := Prod.mk.inj (Option.some.inj h)
      exact .putExit sd

/-- **Inversion.** -/
theorem act_moves {p : Seat} {k k' : Chopstick} {x x' : Pc}
    (h : act p k x = some (k', x')) : Moves p k x k' x' := by
  cases x with
  | think =>
      obtain ⟨rfl, rfl⟩ := Prod.mk.inj (Option.some.inj h)
      exact .think
  | grab sd a => exact grabAct_moves h
  | acqRight =>
      obtain ⟨hpos, rfl, rfl⟩ := acquire_eq_some h
      exact .acqRight hpos
  | acqLeft =>
      obtain ⟨hpos, rfl, rfl⟩ := acquire_eq_some h
      exact .acqLeft hpos
  | eating =>
      obtain ⟨rfl, rfl⟩ := Prod.mk.inj (Option.some.inj h)
      exact .eating
  | relRight =>
      obtain ⟨rfl, rfl⟩ := Prod.mk.inj (Option.some.inj h)
      exact .relRight
  | relLeft =>
      obtain ⟨rfl, rfl⟩ := Prod.mk.inj (Option.some.inj h)
      exact .relLeft
  | put sd a => exact putAct_moves h

section Step

variable {s s' : Table} {p : Seat}

/-- **A step of one thread**, taken apart: it changes one chopstick and its own
program point, and wakes waiting threads if it is a `notifyAll`. -/
theorem step_cases (hn : next s (.step p) = some s') :
    ∃ k x, Moves p (s.stick (s.focus p)) (s.pc p) k x ∧
      s'.stick = Function.update s.stick (s.focus p) k ∧ s'.pc p = x ∧
      ∀ q, q ≠ p → s'.pc q =
        if (s.pc p).notifies then woken (s.focus p) q (s.pc q) else s.pc q := by
  simp only [next] at hn
  cases hact : act p (s.stick (s.focus p)) (s.pc p) with
  | none =>
      rw [hact] at hn
      cases hn
  | some r =>
      obtain ⟨k, x⟩ := r
      have hmoves := act_moves hact
      rw [hact] at hn
      obtain rfl := Option.some.inj hn
      refine ⟨k, x, hmoves, rfl, ?_, fun q hq => ?_⟩
      · cases hnot : (s.pc p).notifies with
        | false => simp
        | true =>
            -- the notifier itself is not in the wait set
            revert hmoves hnot
            cases s.pc p with
            | put sd a =>
                cases a with
                | notify =>
                    intro hmoves _
                    cases hmoves
                    simp [woken]
                | _ => exact nofun
            | _ => exact nofun
      · cases (s.pc p).notifies with
        | false => simp [hq]
        | true => simp [hq]

theorem wake_cases (hn : next s (.wake p) = some s') :
    ∃ sd, s.pc p = .grab sd .waiting ∧ s'.stick = s.stick ∧ s'.pc p = .grab sd .reenter ∧
      ∀ q, q ≠ p → s'.pc q = s.pc q := by
  rw [next] at hn
  split at hn
  case h_1 sd hpc =>
    obtain rfl := Option.some.inj hn
    refine ⟨sd, hpc, rfl, ?_, fun q hq => ?_⟩
    · simp
    · simp [hq]
  case h_2 => cases hn

end Step

end OsProjects.Philosophers
