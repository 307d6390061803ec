import OsProjects.Philosophers.Monitors

/-!
# Interrupts

The program of `Model`, with threads that may be interrupted at any time. A blocking
call of an interrupted thread throws, whether or not it would have blocked, and as
every `catch` interrupts the thread again it stays interrupted for good.

In `grabChopstick` the `finally` releases a permit that `sem.acquire` has not taken.
An interrupted thread that gets there has entered a loop that it never leaves
(`Stuck.next`): it cannot become the owner of the chopstick, and as it keeps the
monitor nobody else can change anything about it.
-/

namespace OsProjects.Philosophers

open Framework

/-! ## Interrupted threads -/

/-- Where the exception takes a thread whose next step is a blocking call. -/
def afterThrow : Pc → Option Pc
  | .think => some (.grab .right .enter)
  | .grab sd .acquire => some (.grab sd .release)     -- `finally`
  | .grab sd .wait => some (.grab sd .test)           -- with the monitor
  | .grab sd .waiting => some (.grab sd .reenter)
  | .acqRight => some .acqLeft
  | .acqLeft => some .eating
  | .eating => some (.put .right .enter)              -- past both `rel`
  | _ => none

structure Room where
  table : Table
  interrupted : Seat → Bool

inductive Move where
  | step (p : Seat)
  | wake (p : Seat)
  | interrupt (p : Seat)
deriving DecidableEq, Repr

def Room.throws (s : Room) (p : Seat) : Option Pc :=
  if s.interrupted p then afterThrow (s.table.pc p) else none

def Table.goto (s : Table) (p : Seat) (x : Pc) : Table :=
  { s with pc := Function.update s.pc p x }

/-- `interrupt()` of thread `p` -/
def Room.interrupt (s : Room) (p : Seat) : Room :=
  { s with interrupted := Function.update s.interrupted p true }

def nextRoom (s : Room) : Move → Option Room
  | .step p =>
      match s.throws p with
      | some x => some { s with table := s.table.goto p x }
      | none => (next s.table (.step p)).map fun t => { s with table := t }
  | .wake p => (next s.table (.wake p)).map fun t => { s with table := t }
  | .interrupt p => some (s.interrupt p)

def emptyRoom : Room := ⟨setup, fun _ => false⟩

def roomMachine : Machine Room Move := ⟨fun s => s = emptyRoom, nextRoom⟩

/-- Inside `grabChopstick`, or inside `eat` and past its first `acq`. -/
def Pc.inside : Pc → Bool
  | .grab _ .enter => false
  | .grab _ _ => true
  | .acqLeft | .eating | .relRight | .relLeft => true
  | _ => false

def Quiet (s : Room) : Prop := ∀ p, (s.table.pc p).inside = false

instance (s : Room) : Decidable (Quiet s) := inferInstanceAs (Decidable (∀ _, _))

/-- In `eat` with a permit, and with a blocking call still to come. -/
def Pc.exposed : Pc → Bool
  | .acqLeft | .eating => true
  | _ => false

/-- No interrupt comes first to a thread that is exposed. -/
def Timely (s : Room) : Move → Prop
  | .interrupt p => s.interrupted p = true ∨ (s.table.pc p).exposed = false
  | _ => True

instance (s : Room) (a : Move) : Decidable (Timely s a) :=
  match a with
  | .interrupt _ => inferInstanceAs (Decidable (_ ∨ _))
  | .step _ => .isTrue trivial
  | .wake _ => .isTrue trivial

/-! ## What a step does -/

/-- A blocking call throws, or the step is one of the program without interrupts. -/
inductive RoomStep (s : Room) : Move → Room → Prop where
  | throw (p : Seat) (x : Pc) : s.interrupted p = true → afterThrow (s.table.pc p) = some x →
      RoomStep s (.step p) ⟨s.table.goto p x, s.interrupted⟩
  | step (p : Seat) (t : Table) : (s.interrupted p = true → afterThrow (s.table.pc p) = none) →
      next s.table (.step p) = some t → RoomStep s (.step p) ⟨t, s.interrupted⟩
  | wake (p : Seat) (t : Table) : next s.table (.wake p) = some t →
      RoomStep s (.wake p) ⟨t, s.interrupted⟩
  | interrupt (p : Seat) : RoomStep s (.interrupt p) (s.interrupt p)

/-- **Inversion.** -/
theorem nextRoom_cases {s s' : Room} {a : Move} (h : nextRoom s a = some s') :
    RoomStep s a s' := by
  cases a with
  | step p =>
      rw [nextRoom] at h
      cases hthrows : s.throws p with
      | some x =>
          rw [hthrows] at h
          obtain rfl := Option.some.inj h
          rw [Room.throws, Option.ite_none_right_eq_some] at hthrows
          exact .throw p x hthrows.1 hthrows.2
      | none =>
          rw [hthrows] at h
          obtain ⟨t, hn, rfl⟩ := Option.map_eq_some_iff.mp h
          refine .step p t (fun hint => ?_) hn
          rw [Room.throws, if_pos hint] at hthrows
          exact hthrows
  | wake p =>
      obtain ⟨t, hn, rfl⟩ := Option.map_eq_some_iff.mp h
      exact .wake p t hn
  | interrupt p =>
      obtain rfl := Option.some.inj h
      exact .interrupt p

section Throw

variable {x x' : Pc}

theorem afterThrow_inMonitor (h : afterThrow x = some x') (sd : Side) :
    inMonitor x' sd = inMonitor x sd := by
  unfold afterThrow at h
  split at h
  all_goals first
    | cases h; rfl
    | cases h

/-- A thread that was waiting has seen what it had seen; others have yet to look. -/
theorem afterThrow_seen {p : Seat} {k : Chopstick} (h : afterThrow x = some x')
    (hseen : Seen p k x) : (x'.side = x.side ∧ Seen p k x') ∨ ∀ k, Seen p k x' := by
  unfold afterThrow at h
  split at h
  case h_4 =>
    cases h
    exact .inl ⟨rfl, hseen⟩
  all_goals first
    | cases h; exact .inr fun _ => trivial
    | cases h

end Throw

theorem goto_self (s : Table) (p : Seat) (x : Pc) : (s.goto p x).pc p = x := by
  simp [Table.goto]

theorem goto_other (s : Table) {p q : Seat} (x : Pc) (h : q ≠ p) :
    (s.goto p x).pc q = s.pc q := by
  simp [Table.goto, h]

theorem interrupt_self (s : Room) (p : Seat) : (s.interrupt p).interrupted p = true := by
  simp [Room.interrupt]

theorem interrupt_other (s : Room) {p q : Seat} (h : q ≠ p) :
    (s.interrupt p).interrupted q = s.interrupted q := by
  simp [Room.interrupt, h]

/-- An interrupted thread stays interrupted. -/
theorem interrupt_mono {s : Room} {q : Seat} (h : s.interrupted q = true) (p : Seat) :
    (s.interrupt p).interrupted q = true := by
  by_cases hq : q = p
  · rw [hq, interrupt_self]
  · rw [interrupt_other s hq, h]

/-! ## Monitors -/

/-- What the program keeps with interrupts as well. -/
structure RoomOk (s : Room) : Prop where
  monitor : MonitorOk s.table
  seen : SeenOk s.table

section Monitors

variable {s s' : Room} {a : Move}

theorem monitorOk_throw {s : Table} {p : Seat} {x : Pc} (hok : MonitorOk s)
    (h : afterThrow (s.pc p) = some x) : MonitorOk (s.goto p x) := by
  intro c q
  have hc := hok c q
  by_cases hq : q = p
  · subst hq
    simp only [goto_self, afterThrow_inMonitor h]
    exact hc
  · rw [goto_other s x hq]
    exact hc

theorem seenOk_throw {s : Table} {p : Seat} {x : Pc} (hok : SeenOk s)
    (h : afterThrow (s.pc p) = some x) : SeenOk (s.goto p x) := by
  intro q
  by_cases hq : q = p
  · subst hq
    rw [Table.focus, goto_self]
    rcases afterThrow_seen h (hok q) with ⟨hside, hseen⟩ | hseen
    · rw [hside]
      exact hseen
    · exact hseen _
  · rw [Table.focus, goto_other s x hq]
    exact hok q

theorem RoomOk.next (hok : RoomOk s) (h : RoomStep s a s') : RoomOk s' := by
  cases h with
  | throw p x _ hx => exact ⟨monitorOk_throw hok.monitor hx, seenOk_throw hok.seen hx⟩
  | step p t _ hn => exact ⟨monitorOk_next hok.monitor hn, seenOk_next hok.monitor hok.seen hn⟩
  | wake p t hn => exact ⟨monitorOk_next hok.monitor hn, seenOk_next hok.monitor hok.seen hn⟩
  | interrupt p => exact ⟨hok.monitor, hok.seen⟩

end Monitors

/-! ## Threads that are stuck -/

/-- In the loop of `grabChopstick`, with the monitor. -/
def Grab.spins : Grab → Bool
  | .test | .look | .acquire | .release | .wait => true
  | _ => false

/-- `p` is interrupted in the loop of `grabChopstick`, and does not own the chopstick: it
can neither acquire nor wait, nor will anybody else enter. -/
structure Stuck (s : Room) (p : Seat) (sd : Side) : Prop where
  interrupted : s.interrupted p = true
  spins : ∃ a, s.table.pc p = .grab sd a ∧ a.spins = true
  other : (s.table.stick (stickOf p sd)).mainuser ≠ p

section Stuck

variable {s s' : Room} {p q : Seat} {sd : Side} {a : Move}

theorem spins_inMonitor {a : Grab} (h : a.spins = true) : inMonitor (.grab sd a) sd = true := by
  cases a with
  | test | look | acquire | release | wait => exact decide_eq_true rfl
  | _ => cases h

theorem Stuck.not_quiet (h : Stuck s p sd) : ¬ Quiet s := by
  obtain ⟨a, hpc, hspins⟩ := h.spins
  intro hquiet
  have hp := hquiet p
  rw [hpc] at hp
  cases a with
  | test | look | acquire | release | wait => cases hp
  | _ => cases hspins

/-- Its own step, when nothing throws: on to the next point of the loop. -/
theorem moves_spins {k k' : Chopstick} {a : Grab} {x' : Pc} (h : Moves p k (.grab sd a) k' x')
    (hspins : a.spins = true) (hthrow : afterThrow (.grab sd a) = none) (hother : k.mainuser ≠ p) :
    (∃ a', x' = .grab sd a' ∧ a'.spins = true) ∧ k'.mainuser ≠ p := by
  cases h with
  | grabOwn _ hown => exact absurd hown hother
  | grabOther | grabClean | grabDirty | grabRelease => exact ⟨⟨_, rfl, rfl⟩, hother⟩
  | grabAcquire | grabWait => cases hthrow
  | _ => cases hspins

/-- While `p` has the monitor, nobody else becomes the owner. -/
theorem mainuser_kept {s t : Table} (hok : MonitorOk s) (hn : next s (.step q) = some t)
    (hq : p ≠ q) (hin : inMonitor (s.pc p) sd = true) :
    (t.stick (stickOf p sd)).mainuser = (s.stick (stickOf p sd)).mainuser := by
  obtain ⟨k, x, hm, hstick, -, -⟩ := step_cases hn
  rcases stick_cases hstick (stickOf p sd) with ⟨hfocus, hk⟩ | ⟨-, hk⟩
  · rw [hk, hfocus]
    rcases moves_fields hm with ⟨hsame, -⟩ | ⟨sd', htake, -⟩ | ⟨sd', -, -, hsame, -⟩
    · exact hsame
    · -- `mainuser = user` is inside the monitor
      have hin' : inMonitor (s.pc q) sd' = true := by
        rw [htake]
        exact decide_eq_true rfl
      have hshare : stickOf p sd = stickOf q sd' := by
        rw [hfocus, Table.focus, htake]
        rfl
      exact absurd (hok.unique hin hin' hshare) hq
    · exact hsame
  · rw [hk]

/-- It stays so when it moves itself, -/
theorem Stuck.own {t : Table} (h : Stuck s p sd) (hthrow : afterThrow (s.table.pc p) = none)
    (hn : next s.table (.step p) = some t) : Stuck ⟨t, s.interrupted⟩ p sd := by
  obtain ⟨hint, ⟨a, hpc, hspins⟩, hother⟩ := h
  obtain ⟨k, x, hm, hstick, hnew, -⟩ := step_cases hn
  have hfocus : s.table.focus p = stickOf p sd := by rw [Table.focus, hpc]; rfl
  rw [hfocus, hpc] at hm
  rw [hpc] at hthrow
  obtain ⟨hspins', hother'⟩ := moves_spins hm hspins hthrow hother
  refine ⟨hint, hnew ▸ hspins', ?_⟩
  rw [hstick, hfocus, Function.update_self]
  exact hother'

/-- and when its blocking call throws, -/
theorem Stuck.throw {x : Pc} (h : Stuck s p sd) (hx : afterThrow (s.table.pc p) = some x) :
    Stuck ⟨s.table.goto p x, s.interrupted⟩ p sd := by
  obtain ⟨hint, ⟨a, hpc, hspins⟩, hother⟩ := h
  refine ⟨hint, ?_, hother⟩
  rw [goto_self]
  rw [hpc] at hx
  cases a with
  | acquire | wait =>
      obtain rfl := Option.some.inj hx
      exact ⟨_, rfl, rfl⟩
  | waiting => cases hspins
  | _ => cases hx

/-- and when others leave it where it is. -/
theorem Stuck.other_moves {t : Table} (h : Stuck s p sd) (hpc : t.pc p = s.table.pc p)
    (howner : (t.stick (stickOf p sd)).mainuser = (s.table.stick (stickOf p sd)).mainuser) :
    Stuck ⟨t, s.interrupted⟩ p sd := by
  obtain ⟨hint, ⟨a, hat, hspins⟩, hother⟩ := h
  refine ⟨hint, ⟨a, hpc.trans hat, hspins⟩, ?_⟩
  rw [howner]
  exact hother

theorem Stuck.not_waiting (h : Stuck s p sd) (sd' : Side) : s.table.pc p ≠ .grab sd' .waiting := by
  obtain ⟨a, hpc, hspins⟩ := h.spins
  rw [hpc]
  rintro ⟨⟩
  cases hspins

/-- **Once stuck, always stuck.** -/
theorem Stuck.next (hok : RoomOk s) (h : Stuck s p sd) (hstep : RoomStep s a s') :
    Stuck s' p sd := by
  cases hstep with
  | throw q x _ hx =>
      by_cases hq : p = q
      · subst hq
        exact h.throw hx
      · exact h.other_moves (goto_other _ x hq) rfl
  | step q t hthrow hn =>
      by_cases hq : p = q
      · subst hq
        exact h.own (hthrow h.interrupted) hn
      · obtain ⟨a, hpc, hspins⟩ := h.spins
        have hin : inMonitor (s.table.pc p) sd = true := by
          rw [hpc]
          exact spins_inMonitor hspins
        obtain ⟨k, x, -, -, -, hothers⟩ := step_cases hn
        refine h.other_moves ?_ (mainuser_kept hok.monitor hn hq hin)
        rcases other_cases (hothers p hq) with heq | ⟨sd', hwait, -⟩
        · exact heq
        · exact absurd hwait (h.not_waiting sd')
  | wake q t hn =>
      obtain ⟨sd', hwait, hstick, -, hothers⟩ := wake_cases hn
      have hq : p ≠ q := by
        rintro rfl
        exact h.not_waiting sd' hwait
      exact h.other_moves (hothers p hq) (by rw [hstick])
  | interrupt q => exact ⟨interrupt_mono h.interrupted q, h.spins, h.other⟩

end Stuck

end OsProjects.Philosophers
