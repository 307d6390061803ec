import OsProjects.ProducerConsumer.Model

/-!
# The buffer is a bounded stack

A thread tests `size` once in `produce` or `consume` and once more in `push` or
`pop`. Between the two it holds `stop`, so nobody else is in between a test and
the use of it (`Guarded`), and the second test never fails.

`Ok` is the invariant; `buffer_report` is what it says of every reachable state:
the bounds, that neither error is printed, and that what consumers are handed is
what a stack hands out.
-/

namespace OsProjects.ProducerConsumer

open Framework

variable {T : Type} [DecidableEq T] {s s' : State T} {t : T} {a : Label T}

/-! ## What a step does -/

inductive StepOf (s : State T) (t : T) : State T → Prop where
  | sleep {wait : Int} : s.pc t = .produce .start →
      StepOf s t (s.goto t (.produce (.asleep wait)))
  | make {wait : Int} {e : Entry} : s.pc t = .produce (.asleep wait) →
      StepOf s t (State.goto { s with made := s.made + 1 } t (.produce (.ready ⟨s.made, e, wait⟩)))
  | lock {job : Job} : s.pc t = .produce (.ready job) → s.stop = none →
      StepOf s t (State.goto { s with stop := some t } t (.produce (.locked job)))
  | room {job : Job} : s.pc t = .produce (.locked job) → s.buffer.size < BUFFSIZE →
      StepOf s t (s.goto t (.produce (.pushing job)))
  | full {job : Job} : s.pc t = .produce (.locked job) → ¬ s.buffer.size < BUFFSIZE →
      StepOf s t (s.goto t (.produce (.leaving job)))
  | push {job : Job} : s.pc t = .produce (.pushing job) → s.buffer.size < BUFFSIZE →
      StepOf s t (State.goto { s with
        buffer := ⟨Function.update s.buffer.entries s.buffer.size job.entry, s.buffer.size + 1⟩
        log := .push job :: s.log } t (.produce (.printing job)))
  | pushFull {job : Job} : s.pc t = .produce (.pushing job) → ¬ s.buffer.size < BUFFSIZE →
      StepOf s t (State.goto { s with printed := .stackFull :: s.printed } t
        (.produce (.printing job)))
  | print {job : Job} : s.pc t = .produce (.printing job) →
      StepOf s t (State.goto { s with
        printed := .produced job.entry.num job.wait :: s.printed } t (.produce (.leaving job)))
  | unlock {job : Job} : s.pc t = .produce (.leaving job) →
      StepOf s t (State.goto { s with stop := none, ended := job :: s.ended } t (.produce .start))
  | lockC : s.pc t = .consume .start → s.stop = none →
      StepOf s t (State.goto { s with stop := some t } t (.consume .locked))
  | some : s.pc t = .consume .locked → 0 < s.buffer.size →
      StepOf s t (s.goto t (.consume .popping))
  | empty : s.pc t = .consume .locked → ¬ 0 < s.buffer.size →
      StepOf s t (s.goto t (.consume .leaving))
  | pop : s.pc t = .consume .popping → 0 < s.buffer.size →
      StepOf s t (State.goto { s with
        buffer := { s.buffer with size := s.buffer.size - 1 }
        log := .take (s.buffer.entries (s.buffer.size - 1)) :: s.log } t
        (.consume (.working (s.buffer.entries (s.buffer.size - 1)))))
  | popEmpty : s.pc t = .consume .popping → ¬ 0 < s.buffer.size →
      StepOf s t (State.goto { s with
        log := .take (s.buffer.entries s.buffer.size) :: s.log
        printed := .cannotPop :: s.printed } t
        (.consume (.working (s.buffer.entries s.buffer.size))))
  | work {e : Entry} : s.pc t = .consume (.working e) →
      StepOf s t (State.goto { s with printed := .consumed e.workTime e.num :: s.printed } t
        (.consume .leaving))
  | unlockC : s.pc t = .consume .leaving →
      StepOf s t (State.goto { s with stop := none } t (.consume .start))

/-- **Inversion.** -/
theorem next_cases (h : next s a = some s') : StepOf s a.tid s' := by
  unfold next at h
  split at h
  · rename_i p hpc
    cases p with
    | start =>
        obtain rfl := Option.some.inj h
        exact .sleep hpc
    | asleep wait =>
        obtain rfl := Option.some.inj h
        exact .make hpc
    | ready job =>
        rw [stepProduce] at h
        split at h
        · rename_i hfree
          obtain rfl := Option.some.inj h
          exact .lock hpc hfree
        · cases h
    | locked job =>
        rw [stepProduce] at h
        split at h
        · rename_i hroom
          obtain rfl := Option.some.inj h
          exact .room hpc hroom
        · rename_i hfull
          obtain rfl := Option.some.inj h
          exact .full hpc hfull
    | pushing job =>
        rw [stepProduce, ProducerConsumer.push] at h
        by_cases hroom : s.buffer.size < BUFFSIZE
        · rw [if_pos hroom] at h
          obtain rfl := Option.some.inj h
          exact .push hpc hroom
        · rw [if_neg hroom] at h
          obtain rfl := Option.some.inj h
          exact .pushFull hpc hroom
    | printing job =>
        obtain rfl := Option.some.inj h
        exact .print hpc
    | leaving job =>
        obtain rfl := Option.some.inj h
        exact .unlock hpc
  · rename_i c hpc
    cases c with
    | start =>
        rw [stepConsume] at h
        split at h
        · rename_i hfree
          obtain rfl := Option.some.inj h
          exact .lockC hpc hfree
        · cases h
    | locked =>
        rw [stepConsume] at h
        split at h
        · rename_i hsome
          obtain rfl := Option.some.inj h
          exact .some hpc hsome
        · rename_i hempty
          obtain rfl := Option.some.inj h
          exact .empty hpc hempty
    | popping =>
        rw [stepConsume, ProducerConsumer.pop] at h
        by_cases hsome : 0 < s.buffer.size
        · rw [if_pos hsome] at h
          obtain rfl := Option.some.inj h
          exact .pop hpc hsome
        · rw [if_neg hsome] at h
          obtain rfl := Option.some.inj h
          exact .popEmpty hpc hsome
    | working e =>
        obtain rfl := Option.some.inj h
        exact .work hpc
    | leaving =>
        obtain rfl := Option.some.inj h
        exact .unlockC hpc

/-! ## The lock -/

/-- Between `pthread_mutex_lock` and `pthread_mutex_unlock`. -/
def Pc.inside : Pc → Bool
  | .produce .start | .produce (.asleep _) | .produce (.ready _) | .consume .start => false
  | _ => true

def State.view (s : State T) : LockView T := ⟨s.stop, fun t => (s.pc t).inside⟩

theorem view_step {p : Pc} (hpc : s'.pc = Function.update s.pc t p)
    (hact : LockView.Act t s.stop s'.stop (s.pc t).inside p.inside) :
    LockView.Step t s.view s'.view := by
  constructor
  · simpa only [State.view, hpc, Function.update_self] using hact
  · intro u hu
    simp only [State.view, hpc, Function.update_of_ne hu]

/-- Every step uses the lock as it should. -/
theorem StepOf.lockStep (h : StepOf s t s') : LockView.Step t s.view s'.view := by
  cases h with
  | lock hpc hfree | lockC hpc hfree =>
      refine view_step rfl ?_
      rw [hpc, hfree]
      exact .take
  | unlock hpc | unlockC hpc =>
      refine view_step rfl ?_
      rw [hpc]
      exact .give
  | sleep hpc | make hpc | room hpc | full hpc | push hpc | pushFull hpc | print hpc | some hpc
    | empty hpc | pop hpc | popEmpty hpc | work hpc =>
      refine view_step rfl ?_
      rw [hpc]
      exact .keep

/-! ## Tests and their use -/

/-- What a thread has found out about the buffer and relies on. -/
def Guarded (b : Buffer) : Pc → Prop
  | .produce (.pushing _) => b.size < BUFFSIZE
  | .consume .popping => 0 < b.size
  | _ => True

theorem guarded_outside {b : Buffer} {p : Pc} (h : p.inside = false) : Guarded b p := by
  cases p with
  | produce p => cases p <;> trivial
  | consume c => cases c <;> trivial

/-- Nobody else relies on a test while `t` changes the buffer. -/
theorem guarded_move (hlock : s.view.Exclusive) (hin : (s.pc t).inside = true)
    {b : Buffer} {p : Pc} (hp : Guarded b p) (u : T) :
    Guarded b (Function.update s.pc t p u) := by
  by_cases hut : u = t
  · rw [hut, Function.update_self]
    exact hp
  · rw [Function.update_of_ne hut]
    refine guarded_outside (Bool.eq_false_of_not_eq_true fun hu => hut ?_)
    exact hlock.unique (v := s.view) hu hin

theorem guarded_keep (hguard : ∀ u, Guarded s.buffer (s.pc u)) {p : Pc}
    (hp : Guarded s.buffer p) (u : T) : Guarded s.buffer (Function.update s.pc t p u) := by
  by_cases hut : u = t
  · rw [hut, Function.update_self]
    exact hp
  · rw [Function.update_of_ne hut]
    exact hguard u

/-! ## Numbers -/

/-- The job a producer has made and not yet pushed. -/
def Pc.unpushed : Pc → Option Job
  | .produce (.ready job) | .produce (.locked job) | .produce (.pushing job) => some job
  | _ => none

/-- No number is given out twice. -/
structure Numbered (pc : T → Pc) (made : Nat) (log : List (StackOp Job Entry)) : Prop where
  inHand : ∀ t job, (pc t).unpushed = some job → job.id < made
  pushed : ∀ job ∈ pushed log, job.id < made
  once : ((Framework.pushed log).map Job.id).Nodup
  apart : ∀ t u job job', (pc t).unpushed = some job → (pc u).unpushed = some job' →
    job.id = job'.id → t = u
  fresh : ∀ t job, (pc t).unpushed = some job → job.id ∉ (Framework.pushed log).map Job.id

section Numbered

variable {pc : T → Pc} {made : Nat} {log : List (StackOp Job Entry)} {p : Pc}

/-- A thread keeps its job in hand, or has none afterwards. -/
theorem Numbered.keep (h : Numbered pc made log)
    (hp : ∀ job, p.unpushed = some job → (pc t).unpushed = some job) :
    Numbered (Function.update pc t p) made log := by
  have hold : ∀ u job, (Function.update pc t p u).unpushed = some job →
      (pc u).unpushed = some job := by
    intro u job hu
    by_cases hut : u = t
    · rw [hut, Function.update_self] at hu
      rw [hut]
      exact hp job hu
    · rwa [Function.update_of_ne hut] at hu
  refine ⟨fun u job hu => h.inHand u job (hold u job hu), h.pushed, h.once, ?_,
    fun u job hu => h.fresh u job (hold u job hu)⟩
  intro u w job job' hu hw
  exact h.apart u w job job' (hold u job hu) (hold w job' hw)

/-- A new job gets the next number. -/
theorem Numbered.make (h : Numbered pc made log) {job : Job} (hp : p.unpushed = some job)
    (hid : job.id = made) : Numbered (Function.update pc t p) (made + 1) log := by
  have hcases : ∀ u j, (Function.update pc t p u).unpushed = some j →
      (u = t ∧ j.id = made) ∨ (u ≠ t ∧ (pc u).unpushed = some j ∧ j.id < made) := by
    intro u j hu
    by_cases hut : u = t
    · rw [hut, Function.update_self, hp] at hu
      obtain rfl := Option.some.inj hu
      exact .inl ⟨hut, hid⟩
    · rw [Function.update_of_ne hut] at hu
      exact .inr ⟨hut, hu, h.inHand u j hu⟩
  refine ⟨fun u j hu => ?_, fun j hj => Nat.lt_succ_of_lt (h.pushed j hj), h.once, ?_, ?_⟩
  · rcases hcases u j hu with ⟨-, hj⟩ | ⟨-, -, hj⟩
    · exact hj ▸ Nat.lt_succ_self made
    · exact Nat.lt_succ_of_lt hj
  · intro u w j j' hu hw heq
    rcases hcases u j hu with ⟨rfl, hj⟩ | ⟨-, hu', hj⟩ <;>
      rcases hcases w j' hw with ⟨rfl, hj'⟩ | ⟨-, hw', hj'⟩
    · rfl
    · exact absurd (heq.symm.trans hj) hj'.ne
    · exact absurd (heq.trans hj') hj.ne
    · exact h.apart u w j j' hu' hw' heq
  · intro u j hu
    rcases hcases u j hu with ⟨-, hj⟩ | ⟨-, hu', -⟩
    · intro hin
      obtain ⟨j', hj', heq⟩ := List.mem_map.mp hin
      exact absurd (heq.trans hj) (h.pushed j' hj').ne
    · exact h.fresh u j hu'

theorem Numbered.push (h : Numbered pc made log) {job : Job}
    (hjob : (pc t).unpushed = some job) (hp : p.unpushed = none) :
    Numbered (Function.update pc t p) made (.push job :: log) := by
  have hkeep : Numbered (Function.update pc t p) made log := h.keep (by simp [hp])
  refine ⟨hkeep.inHand, ?_, ?_, hkeep.apart, ?_⟩
  · exact List.forall_mem_cons.mpr ⟨h.inHand t job hjob, h.pushed⟩
  · exact List.nodup_cons.mpr ⟨h.fresh t job hjob, h.once⟩
  · intro u j hu
    have hut : u ≠ t := by
      rintro rfl
      rw [Function.update_self, hp] at hu
      cases hu
    refine List.not_mem_cons_of_ne_of_not_mem (fun heq => hut ?_) (hkeep.fresh u j hu)
    rw [Function.update_of_ne hut] at hu
    exact h.apart u t j job hu hjob heq

theorem Numbered.take (h : Numbered pc made log) (e : Entry) (hp : p.unpushed = none) :
    Numbered (Function.update pc t p) made (.take e :: log) := by
  have hkeep : Numbered (Function.update pc t p) made log := h.keep (by simp [hp])
  exact ⟨hkeep.inHand, hkeep.pushed, hkeep.once, hkeep.apart, hkeep.fresh⟩

end Numbered

/-! ## The invariant -/

structure Ok (s : State T) : Prop where
  lock : s.view.Exclusive
  guards : ∀ t, Guarded s.buffer (s.pc t)
  stacked : Stacked s.buffer.entries s.buffer.size ((untaken s.log).map Job.entry)
  bound : s.buffer.size ≤ BUFFSIZE
  lifo : Lifo Job.entry s.log
  noError : Printed.stackFull ∉ s.printed ∧ Printed.cannotPop ∉ s.printed
  numbered : Numbered s.pc s.made s.log

omit [DecidableEq T] in
theorem ok_booted (h : Booted s) : Ok s := by
  have hout : ∀ t, (s.pc t).inside = false ∧ (s.pc t).unpushed = none := by
    intro t
    rcases h.pc t with hpc | hpc <;> rw [hpc] <;> exact ⟨rfl, rfl⟩
  refine ⟨?_, fun t => guarded_outside (hout t).1, ?_, ?_, ?_, ?_, ?_⟩
  · intro t ht
    cases (hout t).1.symm.trans ht
  · rw [h.log]
    exact h.size
  · rw [h.size]
    decide
  · rw [h.log]
    trivial
  · rw [h.printed]
    exact ⟨List.not_mem_nil, List.not_mem_nil⟩
  · rw [h.log]
    have hnone : ∀ t job, (s.pc t).unpushed ≠ some job := by
      intro t job
      rw [(hout t).2]
      exact (Option.some_ne_none job).symm
    exact ⟨fun t job ht => absurd ht (hnone t job), by simp [pushed], by simp [pushed],
      fun t u job job' ht => absurd ht (hnone t job), fun t job ht => absurd ht (hnone t job)⟩

theorem not_mem_error {x err : Printed} {out : List Printed} (h : err ∉ out) (hne : err ≠ x) :
    err ∉ x :: out :=
  List.not_mem_cons_of_ne_of_not_mem hne h

/-- **Every step keeps the invariant.** -/
theorem Ok.step (hok : Ok s) (h : StepOf s t s') : Ok s' := by
  have hlock := hok.lock.step h.lockStep
  have hguards := hok.guards t
  obtain ⟨hfull, hempty⟩ := hok.noError
  cases h with
  | sleep hpc | lock hpc | full hpc | lockC hpc | empty hpc | unlock hpc | unlockC hpc =>
      refine ⟨hlock, guarded_keep hok.guards trivial, hok.stacked, hok.bound, hok.lifo,
        hok.noError, hok.numbered.keep ?_⟩
      rw [hpc]
      simp [Pc.unpushed]
  | room hpc htest =>
      refine ⟨hlock, guarded_keep hok.guards htest, hok.stacked, hok.bound, hok.lifo,
        hok.noError, hok.numbered.keep ?_⟩
      rw [hpc]
      simp [Pc.unpushed]
  | some hpc htest =>
      refine ⟨hlock, guarded_keep hok.guards htest, hok.stacked, hok.bound, hok.lifo,
        hok.noError, hok.numbered.keep ?_⟩
      simp [Pc.unpushed]
  | make hpc =>
      exact ⟨hlock, guarded_keep hok.guards trivial, hok.stacked, hok.bound, hok.lifo,
        hok.noError, hok.numbered.make rfl rfl⟩
  | push hpc htest =>
      have hin : (s.pc t).inside = true := by rw [hpc]; rfl
      refine ⟨hlock, guarded_move hok.lock hin trivial, hok.stacked.push _, htest, hok.lifo,
        hok.noError, hok.numbered.push ?_ rfl⟩
      rw [hpc]
      rfl
  | pop hpc htest =>
      have hin : (s.pc t).inside = true := by rw [hpc]; rfl
      obtain ⟨htop, hrest⟩ := hok.stacked.pop htest
      rw [List.head?_map, Option.map_eq_some_iff] at htop
      refine ⟨hlock, guarded_move hok.lock hin trivial, ?_, ?_, ⟨htop, hok.lifo⟩, hok.noError,
        hok.numbered.take _ rfl⟩
      · rw [← List.map_tail] at hrest
        exact hrest
      · exact (Int.sub_le_self _ zero_le_one).trans hok.bound
  | pushFull hpc htest =>
      -- the first test was made under the lock
      rw [hpc] at hguards
      exact absurd hguards htest
  | popEmpty hpc htest =>
      rw [hpc] at hguards
      exact absurd hguards htest
  | print hpc | work hpc =>
      refine ⟨hlock, guarded_keep hok.guards trivial, hok.stacked, hok.bound, hok.lifo,
        ⟨not_mem_error hfull (by simp), not_mem_error hempty (by simp)⟩, hok.numbered.keep ?_⟩
      simp [Pc.unpushed]

theorem reach_ok (hs : (machine T).Reach s) : Ok s := by
  refine hs.invariant (fun _ => ok_booted) ?_
  intro s a s' hok _ hn
  exact hok.step (next_cases hn)

/-! ## What holds in every state -/

structure Report (s : State T) : Prop where
  size : 0 ≤ s.buffer.size ∧ s.buffer.size ≤ BUFFSIZE
  /-- Neither the "stack full" branch of `push` nor the "empty stack" branch of `pop` is taken. -/
  noError : Printed.stackFull ∉ s.printed ∧ Printed.cannotPop ∉ s.printed
  /-- Below `size` are the entries pushed and not taken, in order. -/
  contents : Stacked s.buffer.entries s.buffer.size ((untaken s.log).map Job.entry)
  /-- A consumer is handed the entry of a job that was pushed and had not been taken;
  all jobs pushed since had been. -/
  latest : ∀ later e earlier, s.log = later ++ .take e :: earlier →
    ∃ job since before, earlier = since ++ .push job :: before ∧ job.entry = e ∧
      job ∉ takenOut earlier ∧ ∀ j ∈ pushed since, j ∈ takenOut earlier
  /-- No job is taken twice. -/
  once : ((takenOut s.log).map Job.id).Nodup

/-- **The buffer is a correct bounded stack**, for any threads that run `produce`
or `consume` on it, in any interleaving. -/
theorem buffer_report (T : Type) [DecidableEq T] (s : State T) (hs : (machine T).Reach s) :
    Report s := by
  have hok := reach_ok hs
  refine ⟨⟨?_, hok.bound⟩, hok.noError, hok.stacked, ?_, ?_⟩
  · rw [hok.stacked.size]
    exact Int.natCast_nonneg _
  · intro later e earlier hlog
    have hlifo := hok.lifo
    have hnodup := hok.numbered.once.of_map
    rw [hlog] at hlifo hnodup
    obtain ⟨job, since, before, hsplit, hentry, hmem, hsince⟩ := hlifo.latest
    refine ⟨job, since, before, hsplit, hentry, ?_, hsince⟩
    rw [pushed_append] at hnodup
    have hearlier : (pushed earlier).Nodup := (List.nodup_append.mp hnodup).2.1
    exact (takenOut_nodup hearlier).2 job hmem
  · have hperm := (pushed_perm s.log).map Job.id
    rw [List.map_append] at hperm
    exact (List.nodup_append.mp (hperm.nodup_iff.mp hok.numbered.once)).2.1

/-- One thread of each kind. -/
inductive Thread where
  | producer
  | consumer
deriving DecidableEq, Repr

def start : State Thread where
  buffer := ⟨fun _ => ⟨0, 0⟩, 0⟩
  stop := none
  pc := fun t => if t = .producer then .produce .start else .consume .start
  printed := []
  made := 0
  log := []
  ended := []

theorem booted_start : Booted start := by
  refine ⟨rfl, rfl, fun t => ?_, rfl, rfl, rfl, rfl⟩
  cases t with
  | producer => exact .inl rfl
  | consumer => exact .inr rfl

/-- A round of the producer: seven steps, of which the first two draw. -/
def round : List (Label Thread) := List.replicate 7 ⟨.producer, 5, 7⟩

theorem buffer_report_twoRounds : ∃ s, (machine Thread).Reach s ∧
    s.log = [.take ⟨7, 5⟩, .push ⟨1, ⟨7, 5⟩, 3⟩, .push ⟨0, ⟨7, 5⟩, 3⟩] ∧ Report s := by
  have hrun : ((machine Thread).replay start
      (round ++ round ++ List.replicate 3 ⟨.consumer, 0, 0⟩)).map State.log =
      some [.take ⟨7, 5⟩, .push ⟨1, ⟨7, 5⟩, 3⟩, .push ⟨0, ⟨7, 5⟩, 3⟩] := by decide +kernel
  obtain ⟨s, hs, hlog⟩ := Option.map_eq_some_iff.mp hrun
  have hreach : (machine Thread).Reach s := Machine.Reach.replay (.init booted_start) hs
  exact ⟨s, hreach, hlog, buffer_report Thread s hreach⟩

end OsProjects.ProducerConsumer
