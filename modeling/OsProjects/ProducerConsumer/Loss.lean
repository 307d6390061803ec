import OsProjects.ProducerConsumer.Delivery

/-!
# Entries that are dropped

`produce` makes its entry before it takes the lock. If it then finds the buffer
full, it goes back to the top of its loop and the entry is gone.

`kept_iff` — the jobs whose round is over are in the buffer or have been taken, in
every state of a run, if no producer ever finds the buffer full; in a run that
ends with the lock free, only then.
-/

namespace OsProjects.ProducerConsumer

open Framework

variable {T : Type} [DecidableEq T] {s s' : State T} {t u : T} {job : Job}

/-- Every job whose round is over is in the buffer or has been taken. -/
structure Kept (s : State T) : Prop where
  contents : Stacked s.buffer.entries s.buffer.size ((untaken s.log).map Job.entry)
  kept : ∀ job ∈ s.ended, job ∈ untaken s.log ∨ job ∈ takenOut s.log

/-- A producer is about to test `b->size < BUFFSIZE`. -/
def Pc.tests : Pc → Bool
  | .produce (.locked _) => true
  | _ => false

theorem Pc.tests_iff {p : Pc} : p.tests = true ↔ ∃ job, p = .produce (.locked job) := by
  constructor
  · intro h
    unfold Pc.tests at h
    split at h
    · exact ⟨_, rfl⟩
    · cases h
  · rintro ⟨job, rfl⟩
    rfl

/-- A producer that tests finds room. -/
def FindsRoom (s : State T) (a : Label T) : Prop :=
  (s.pc a.tid).tests = true → s.buffer.size < BUFFSIZE

instance (s : State T) (a : Label T) : Decidable (FindsRoom s a) :=
  inferInstanceAs (Decidable (_ → _))

/-- Pushed is in the buffer or taken. -/
theorem mem_pushed {log : List (StackOp Job Entry)} :
    job ∈ pushed log ↔ job ∈ untaken log ∨ job ∈ takenOut log := by
  rw [(pushed_perm log).mem_iff, List.mem_append]

/-! ## As long as there is room -/

/-- The job that a producer should have pushed by now. -/
def Pc.handled : Pc → Option Job
  | .produce (.printing job) | .produce (.leaving job) => some job
  | _ => none

structure AllPushed (s : State T) : Prop where
  ok : Ok s
  ended : ∀ job ∈ s.ended, job ∈ pushed s.log
  handled : ∀ t job, (s.pc t).handled = some job → job ∈ pushed s.log

omit [DecidableEq T] in
theorem AllPushed.kept (h : AllPushed s) : Kept s :=
  ⟨h.ok.stacked, fun job hjob => mem_pushed.mp (h.ended job hjob)⟩

omit [DecidableEq T] in
theorem allPushed_booted (h : Booted s) : AllPushed s := by
  refine ⟨ok_booted h, ?_, ?_⟩
  · rw [h.ended]
    simp
  · intro t job ht
    rcases h.pc t with hpc | hpc <;> rw [hpc] at ht <;> cases ht

/-- A thread's next program point, with nothing to answer for but its own. -/
theorem handled_update {pc : T → Pc} {jobs jobs' : List Job} {p : Pc}
    (h : ∀ u job, (pc u).handled = some job → job ∈ jobs) (hsub : ∀ job ∈ jobs, job ∈ jobs')
    (hp : ∀ job, p.handled = some job → job ∈ jobs') (u : T) (job : Job)
    (hu : (Function.update pc t p u).handled = some job) : job ∈ jobs' := by
  by_cases hut : u = t
  · rw [hut, Function.update_self] at hu
    exact hp job hu
  · rw [Function.update_of_ne hut] at hu
    exact hsub job (h u job hu)

theorem AllPushed.step (h : AllPushed s) (hroom : (s.pc t).tests = true → s.buffer.size < BUFFSIZE)
    (hs : StepOf s t s') : AllPushed s' := by
  have hok := h.ok.step hs
  have hguards := h.ok.guards t
  have hmine := h.handled t
  cases hs with
  | sleep | make | lock | room | lockC | some | empty | pop | popEmpty | work | unlockC =>
      refine ⟨hok, h.ended, handled_update h.handled (fun _ => id) ?_⟩
      simp [Pc.handled]
  | full hpc htest =>
      rw [hpc] at hroom
      exact absurd (hroom rfl) htest
  | @push job hpc _ =>
      refine ⟨hok, fun j hj => List.mem_cons_of_mem job (h.ended j hj),
        handled_update h.handled (fun j => List.mem_cons_of_mem job) ?_⟩
      intro j hj
      obtain rfl := Option.some.inj hj
      exact List.mem_cons_self
  | pushFull hpc htest =>
      rw [hpc] at hguards
      exact absurd hguards htest
  | print hpc =>
      rw [hpc] at hmine
      exact ⟨hok, h.ended, handled_update h.handled (fun _ => id) hmine⟩
  | @unlock job hpc =>
      rw [hpc] at hmine
      refine ⟨hok, List.forall_mem_cons.mpr ⟨hmine job rfl, h.ended⟩,
        handled_update h.handled (fun _ => id) ?_⟩
      simp [Pc.handled]

/-! ## Once it is full -/

/-- While `t` is inside, nobody else touches the history. -/
theorem StepOf.log_of_inside (hlock : s.view.Exclusive) (ht : (s.pc t).inside = true)
    (hut : u ≠ t) (hs : StepOf s u s') : s'.log = s.log ∧ s'.pc t = s.pc t := by
  have hout : (s.pc u).inside = true → False := fun hu => hut (hlock.unique (v := s.view) hu ht)
  cases hs with
  | push hpc | pop hpc | popEmpty hpc =>
      rw [hpc] at hout
      exact (hout rfl).elim
  | sleep | make | lock | room | full | pushFull | print | unlock | lockC | some | empty | work
    | unlockC => exact ⟨rfl, Function.update_of_ne hut.symm _ _⟩

/-- **A job that is not pushed by the end of its round is lost.** -/
theorem dropped {as : List (Label T)} (hok : Ok s) (hpc : s.pc t = .produce (.leaving job))
    (hjob : job ∉ pushed s.log) (hrun : (machine T).replay s as = some s')
    (hfree : s'.stop = none) : ¬ (machine T).Along Kept s as := by
  have hin : (s.pc t).inside = true := by rw [hpc]; rfl
  induction as generalizing s with
  | nil =>
      obtain rfl := Option.some.inj hrun
      have hheld : s.stop = some t := hok.lock t hin
      rw [hheld] at hfree
      cases hfree
  | cons a as ih =>
      obtain ⟨s₁, hn, hrest⟩ := Machine.replay_cons hrun
      have hstep := next_cases hn
      rintro ⟨-, hall⟩
      have hafter := hall s₁ hn
      by_cases hat : a.tid = t
      · have hend : s₁.ended = job :: s.ended ∧ s₁.log = s.log := by
          simp only [machine, next, hat, hpc, stepProduce] at hn
          obtain rfl := Option.some.inj hn
          exact ⟨rfl, rfl⟩
        have hkept := hafter.head.kept job (by rw [hend.1]; exact List.mem_cons_self)
        rw [← mem_pushed, hend.2] at hkept
        exact hjob hkept
      · obtain ⟨hlog, hpc₁⟩ := hstep.log_of_inside hok.lock hin hat
        refine ih (hok.step hstep) (hpc₁.trans hpc) ?_ hrest ?_ hafter
        · rw [hlog]
          exact hjob
        · rw [hpc₁]
          exact hin

theorem findsRoom_of_kept {as : List (Label T)} (hok : Ok s)
    (hrun : (machine T).replay s as = some s') (hfree : s'.stop = none)
    (h : (machine T).Along Kept s as) : (machine T).StepsMeet FindsRoom s as := by
  induction as generalizing s with
  | nil => trivial
  | cons a as ih =>
      obtain ⟨s₁, hn, hrest⟩ := Machine.replay_cons hrun
      have hstep := next_cases hn
      have hafter := h.2 s₁ hn
      refine ⟨fun htests => ?_, fun s₂ hn₂ => ?_⟩
      · by_contra hfull
        obtain ⟨job, hpc⟩ := Pc.tests_iff.mp htests
        have hfresh := hok.numbered.fresh a.tid job (by rw [hpc]; rfl)
        simp only [machine, next, hpc, stepProduce, if_neg hfull] at hn
        obtain rfl := Option.some.inj hn
        refine dropped (hok.step hstep) (Function.update_self ..) (fun hin => ?_) hrest hfree
          hafter
        exact hfresh (List.mem_map_of_mem hin)
      · obtain rfl := Option.some.inj (hn.symm.trans hn₂)
        exact ih (hok.step hstep) hrest hafter

/-- **No entry is dropped as long as producers find room**, and in a run that
ends with the lock free only then. -/
theorem kept_iff (T : Type) [DecidableEq T] (s s' : State T) (as : List (Label T))
    (hboot : (machine T).init s) (hrun : (machine T).replay s as = some s') :
    ((machine T).StepsMeet FindsRoom s as → (machine T).Along Kept s as) ∧
    (s'.stop = none → (machine T).Along Kept s as → (machine T).StepsMeet FindsRoom s as) := by
  constructor
  · intro hroom
    have hstep : ∀ s a s', AllPushed s → FindsRoom s a → (machine T).next s a = some s' →
        AllPushed s' := fun s a s' h hr hn => h.step hr (next_cases hn)
    exact (hroom.along hstep (allPushed_booted hboot)).imp fun _ => AllPushed.kept
  · exact findsRoom_of_kept (ok_booted hboot) hrun

theorem kept_iff_twoRounds : ∃ s', (machine Thread).replay start (round ++ round) = some s' ∧
    s'.ended = [⟨1, ⟨7, 5⟩, 3⟩, ⟨0, ⟨7, 5⟩, 3⟩] ∧
    (machine Thread).Along Kept start (round ++ round) := by
  have hrun : ((machine Thread).replay start (round ++ round)).map State.ended =
      some [⟨1, ⟨7, 5⟩, 3⟩, ⟨0, ⟨7, 5⟩, 3⟩] := by decide +kernel
  obtain ⟨s', hs', hended⟩ := Option.map_eq_some_iff.mp hrun
  exact ⟨s', hs', hended,
    (kept_iff Thread start s' (round ++ round) booted_start hs').1 (by decide +kernel)⟩

/-- **The thirty-third entry is lost**, when nothing is consumed. -/
theorem entry_lost : ∃ s',
    (machine Thread).replay start (List.replicate 229 ⟨.producer, 5, 7⟩) = some s' ∧
    s'.stop = none ∧ ⟨32, ⟨7, 5⟩, 3⟩ ∈ s'.ended ∧ ⟨32, ⟨7, 5⟩, 3⟩ ∉ untaken s'.log ∧
    ⟨32, ⟨7, 5⟩, 3⟩ ∉ takenOut s'.log := by
  have hrun : ((machine Thread).replay start (List.replicate 229 ⟨.producer, 5, 7⟩)).map
      (fun s => (s.stop, decide (⟨32, ⟨7, 5⟩, 3⟩ ∈ s.ended),
        decide (⟨32, ⟨7, 5⟩, 3⟩ ∈ untaken s.log), decide (⟨32, ⟨7, 5⟩, 3⟩ ∈ takenOut s.log))) =
      some (none, true, false, false) := by
    decide +kernel
  obtain ⟨s', hs', hend⟩ := Option.map_eq_some_iff.mp hrun
  simp only [Prod.mk.injEq, decide_eq_true_eq, decide_eq_false_iff_not] at hend
  exact ⟨s', hs', hend⟩

end OsProjects.ProducerConsumer
