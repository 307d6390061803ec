import OsProjects.Framework.Simulation
import OsProjects.Twister.Stream
import OsProjects.ProducerConsumer.Delivery

/-!
# The program as `main` starts it

One producer, one consumer, and the generator behind `random_num`: `rdrand` where the
processor has it, else `genrand_int32`, which nothing in the program ever seeds. Any run
is one of the buffer's (`program_reach`), with the random bits not free any more.

Without `rdrand` the bits are those of the default seed. Only the producer draws, three
numbers in a round, so that however the two threads are scheduled its rounds are the
same, one after the other, in every run of the program (`rounds_fixed`).
-/

namespace OsProjects.ProducerConsumer

open Framework Twister

/-! ## The code -/

structure Prog (w : Nat) where
  state : State Thread
  gen : Gen w

section Code

variable {w : Nat}

/-- What `random_num` starts from. `bits` is what `rdrand` delivers; that it may fail, and
then delivers 0, is not looked at. -/
def rawBits (rdrand : Bool) (bits : BitVec 32) (g : Gen w) : BitVec 32 × Gen w :=
  if rdrand then (bits, g) else ((genrandInt32 g).1.setWidth 32, (genrandInt32 g).2)

/-- A step of one of the two threads. `wait` is drawn in the first step of a round, and
`e.work_time` and then `e.num` in the second. -/
def programNext (rdrand : Bool) (s : Prog w) (a : Label Thread) : Option (Prog w) :=
  match s.state.pc a.tid with
  | .produce .start =>
      let draw := rawBits rdrand a.raw s.gen
      (next s.state { a with raw := draw.1 }).map fun s' => ⟨s', draw.2⟩
  | .produce (.asleep _) =>
      let draw := rawBits rdrand a.raw s.gen
      let draw' := rawBits rdrand a.raw' draw.2
      (next s.state ⟨a.tid, draw.1, draw'.1⟩).map fun s' => ⟨s', draw'.2⟩
  | _ => (next s.state a).map fun s' => ⟨s', s.gen⟩

/-- `main` has created both threads. -/
structure Launched (s : Prog w) : Prop where
  booted : Booted s.state
  producer : s.state.pc .producer = .produce .start
  consumer : s.state.pc .consumer = .consume .start
  gen : s.gen = loaded

def program (rdrand : Bool) (w : Nat) : Machine (Prog w) (Label Thread) :=
  ⟨Launched, programNext rdrand⟩

end Code

section Runs

variable {rdrand : Bool} {w : Nat} {s s' : Prog w} {a : Label Thread}

/-! ## The buffer's view of a run -/

/-- The generator only fills in the bits. -/
theorem next_of_programNext (h : programNext rdrand s a = some s') :
    ∃ b : Label Thread, b.tid = a.tid ∧ next s.state b = some s'.state := by
  unfold programNext at h
  split at h <;> obtain ⟨t, ht, rfl⟩ := Option.map_eq_some_iff.mp h <;> exact ⟨_, by rfl, ht⟩

theorem program_reach (h : (program rdrand w).Reach s) : (machine Thread).Reach s.state := by
  obtain ⟨t, ht, rfl⟩ : ∃ t, (machine Thread).Reach t ∧ s.state = t := by
    refine h.simulate (R := fun s t => s.state = t) ?_ ?_
    · exact fun s (h0 : Launched s) => ⟨_, h0.booted, rfl⟩
    · rintro s t a s' - rfl - hn
      obtain ⟨b, -, hb⟩ := next_of_programNext hn
      exact .inr ⟨b, _, trivial, hb, rfl⟩
  exact ht

/-! ## The rounds of the producer -/

/-- The bits that the `n`-th call of `random_num` starts from. -/
def word (w n : Nat) : BitVec 32 := (output (loaded : Gen w) n).setWidth 32

/-- What the producer makes of its `n`-th round. -/
def plan (w n : Nat) : Job where
  id := n
  entry := ⟨randomNum 0 10 (word w (3 * n + 2)), randomNum 2 9 (word w (3 * n + 1))⟩
  wait := randomNum 3 7 (word w (3 * n))

/-- The first `n` rounds, latest first. -/
def rounds (w : Nat) : Nat → List Job
  | 0 => []
  | n + 1 => plan w n :: rounds w n

@[simp] theorem length_rounds (w n : Nat) : (rounds w n).length = n := by
  induction n with
  | zero => rfl
  | succ n ih => rw [rounds, List.length_cons, ih]

/-- Where the producer is in its rounds, and how far the generator is. -/
def OnPlan (g : Gen w) (made : Nat) (ended : List Job) : Pc → Prop
  | .produce .start => g = after loaded (3 * made) ∧ ended = rounds w made
  | .produce (.asleep wait) =>
      g = after loaded (3 * made + 1) ∧ ended = rounds w made ∧ wait = (plan w made).wait
  | .produce (.ready job) | .produce (.locked job) | .produce (.pushing job)
  | .produce (.printing job) | .produce (.leaving job) =>
      g = after loaded (3 * made) ∧ ∃ n, made = n + 1 ∧ ended = rounds w n ∧ job = plan w n
  | .consume _ => False

structure Planned (s : Prog w) : Prop where
  producer : OnPlan s.gen s.state.made s.state.ended (s.state.pc .producer)
  consumer : ∃ c, s.state.pc .consumer = .consume c
  pushed : ∀ job ∈ pushed s.state.log, job = plan w job.id

theorem rawBits_after (bits : BitVec 32) (n : Nat) :
    rawBits false bits (after (loaded : Gen w) n) = (word w n, after loaded (n + 1)) := by
  rw [rawBits, if_neg Bool.false_ne_true, after_succ]
  rfl

/-- The consumer leaves the producer's rounds alone. -/
theorem consume_frame {s s' : State Thread} {t : Thread} {c : ConsumePc}
    (h : stepConsume s t c = some s') : s'.made = s.made ∧ s'.ended = s.ended ∧
      pushed s'.log = pushed s.log ∧ ∃ c', s'.pc = Function.update s.pc t (.consume c') := by
  cases c with
  | start =>
      rw [stepConsume, Option.ite_none_right_eq_some] at h
      obtain rfl := Option.some.inj h.2
      exact ⟨rfl, rfl, rfl, _, rfl⟩
  | locked =>
      rw [stepConsume] at h
      split at h <;> obtain rfl := Option.some.inj h <;> exact ⟨rfl, rfl, rfl, _, rfl⟩
  | popping | working _ | leaving =>
      obtain rfl := Option.some.inj h
      exact ⟨rfl, rfl, rfl, _, rfl⟩

theorem Planned.consume (h : Planned s) {c : ConsumePc} {t : State Thread}
    (hstep : stepConsume s.state .consumer c = some t) : Planned ⟨t, s.gen⟩ := by
  obtain ⟨hmade, hended, hpushed, c', hpc⟩ := consume_frame hstep
  refine ⟨?_, ⟨c', ?_⟩, ?_⟩ <;> dsimp only
  · rw [hmade, hended, hpc, Function.update_of_ne (by decide)]
    exact h.producer
  · rw [hpc, Function.update_self]
  · rw [hpushed]
    exact h.pushed

/-- The producer moves on, and is where it should be. -/
theorem Planned.goto (h : Planned s) {t : State Thread} {g : Gen w} {p : Pc}
    (hpc : t.pc = Function.update s.state.pc .producer p)
    (hlog : ∀ job ∈ Framework.pushed t.log, job = plan w job.id)
    (hp : OnPlan g t.made t.ended p) : Planned ⟨t, g⟩ := by
  obtain ⟨c, hc⟩ := h.consumer
  refine ⟨?_, ⟨c, ?_⟩, hlog⟩ <;> dsimp only
  · rw [hpc, Function.update_self]
    exact hp
  · rw [hpc, Function.update_of_ne (by decide)]
    exact hc

/-- A step of the producer that draws nothing. -/
theorem Planned.produce (h : Planned s) {p : ProducePc} (hpc : s.state.pc .producer = .produce p)
    {raw raw' : BitVec 32} {t : State Thread}
    (hstep : stepProduce s.state .producer raw raw' p = some t)
    (hquiet : p ≠ .start ∧ ∀ wait, p ≠ .asleep wait) : Planned ⟨t, s.gen⟩ := by
  have hplan := h.producer
  rw [hpc] at hplan
  cases p with
  | start => exact absurd rfl hquiet.1
  | asleep wait => exact absurd rfl (hquiet.2 wait)
  | ready job =>
      rw [stepProduce, Option.ite_none_right_eq_some] at hstep
      obtain rfl := Option.some.inj hstep.2
      exact h.goto rfl h.pushed hplan
  | locked job =>
      rw [stepProduce] at hstep
      split at hstep <;> obtain rfl := Option.some.inj hstep <;> exact h.goto rfl h.pushed hplan
  | pushing job =>
      obtain ⟨-, n, -, -, hjob⟩ := id hplan
      rw [stepProduce] at hstep
      split at hstep <;> obtain rfl := Option.some.inj hstep
      · refine h.goto rfl (List.forall_mem_cons.mpr ⟨?_, h.pushed⟩) hplan
        rw [hjob]
        rfl
      · exact h.goto rfl h.pushed hplan
  | printing job =>
      obtain rfl := Option.some.inj hstep
      exact h.goto rfl h.pushed hplan
  | leaving job =>
      obtain rfl := Option.some.inj hstep
      obtain ⟨hgen, n, hmade, hended, rfl⟩ := hplan
      refine h.goto rfl h.pushed ⟨hgen, ?_⟩
      change plan w n :: s.state.ended = rounds w s.state.made
      rw [hended, hmade, rounds]

theorem Planned.step (h : Planned s) (hn : programNext false s a = some s') : Planned s' := by
  obtain ⟨tid, bits, bits'⟩ := a
  have hplan := h.producer
  cases tid with
  | consumer =>
      obtain ⟨c, hc⟩ := h.consumer
      rw [programNext, hc] at hn
      obtain ⟨t, ht, rfl⟩ := Option.map_eq_some_iff.mp hn
      rw [next, hc] at ht
      exact h.consume ht
  | producer =>
      rw [programNext] at hn
      dsimp only at hn
      split at hn <;> obtain ⟨t, ht, rfl⟩ := Option.map_eq_some_iff.mp hn
      · rename_i hpc
        rw [hpc] at hplan
        obtain ⟨hgen, hended⟩ := hplan
        rw [next, hpc, hgen, rawBits_after] at ht
        rw [hgen, rawBits_after]
        obtain rfl := Option.some.inj ht
        exact h.goto rfl h.pushed ⟨rfl, hended, rfl⟩
      · rename_i wait hpc
        rw [hpc] at hplan
        obtain ⟨hgen, hended, hwait⟩ := hplan
        rw [next, hpc, hgen, rawBits_after, rawBits_after] at ht
        rw [hgen, rawBits_after, rawBits_after]
        obtain rfl := Option.some.inj ht
        refine h.goto rfl h.pushed ⟨rfl, s.state.made, rfl, hended, ?_⟩
        rw [hwait]
        rfl
      · rename_i hstart hasleep
        cases hpc : s.state.pc .producer with
        | consume c =>
            rw [hpc] at hplan
            exact hplan.elim
        | produce p =>
            rw [next, hpc] at ht
            refine h.produce hpc ht ⟨?_, ?_⟩
            · rintro rfl
              exact hstart hpc
            · rintro wait rfl
              exact hasleep wait hpc

theorem reach_planned (h : (program false w).Reach s) : Planned s := by
  refine h.invariant ?_ fun s a s' h _ hn => h.step hn
  intro s (h0 : Launched s)
  have hbooted := h0.booted
  refine ⟨?_, ⟨_, h0.consumer⟩, ?_⟩
  · rw [h0.producer, hbooted.made, hbooted.ended]
    exact ⟨h0.gen, rfl⟩
  · rw [hbooted.log]
    exact fun _ hjob => absurd hjob List.not_mem_nil

end Runs

/-- **Every run makes the same entries.** On a processor without `rdrand`, whatever the
schedule, the rounds the producer has ended are the first so many of a fixed sequence, and
so is everything that was ever pushed. -/
theorem rounds_fixed (w : Nat) (s : Prog w) (hs : (program false w).Reach s) :
    s.state.ended = rounds w s.state.ended.length ∧
      ∀ job ∈ pushed s.state.log, job = plan w job.id := by
  have h := reach_planned hs
  refine ⟨?_, h.pushed⟩
  have hplan := h.producer
  cases hpc : s.state.pc .producer with
  | consume c =>
      rw [hpc] at hplan
      exact hplan.elim
  | produce p =>
      rw [hpc] at hplan
      cases p with
      | start =>
          rw [hplan.2, length_rounds]
      | asleep wait =>
          rw [hplan.2.1, length_rounds]
      | ready job | locked job | pushing job | printing job | leaving job =>
          obtain ⟨-, n, -, hended, -⟩ := hplan
          rw [hended, length_rounds]

theorem launched_start (w : Nat) : Launched (⟨start, loaded⟩ : Prog w) :=
  ⟨booted_start, rfl, rfl, rfl⟩

theorem rounds_fixed_first : ∃ s : Prog 64, (program false 64).Reach s ∧
    s.state.ended = [plan 64 0] := by
  have hrun : ((program false 64).replay ⟨start, loaded⟩
      (List.replicate 7 ⟨.producer, 0, 0⟩)).map (fun s => s.state.ended.length) = some 1 := by
    decide +kernel
  obtain ⟨s, hs, hlen⟩ := Option.map_eq_some_iff.mp hrun
  have hreach : (program false 64).Reach s :=
    Machine.Reach.replay (.init (launched_start 64)) hs
  have hended := (rounds_fixed 64 s hreach).1
  rw [hlen] at hended
  exact ⟨s, hreach, hended⟩

end OsProjects.ProducerConsumer
