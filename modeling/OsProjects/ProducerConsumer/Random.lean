import OsProjects.ProducerConsumer.Model

/-!
# The numbers that are drawn

`random_num(min, max)` takes a remainder by `max - min`, and then `min` in place of
anything smaller, where it should have added `min`. What it can return is `min` and
the numbers from `min` up to `max - min` (`mem_range_randomNum`), which is
`{min, ..., max - 1}` only if `min` is 0 or there is but one number to choose
(`range_randomNum_iff`).

Of the three calls in `produce` one is of that kind. A producer always sleeps three
seconds, and a consumer never works for more than six (`reach_drawn`).
-/

namespace OsProjects.ProducerConsumer

open Framework

/-! ## One call -/

theorem wrapAbs_cases (raw : BitVec 32) :
    (0 ≤ wrapAbs raw ∧ wrapAbs raw < 2 ^ 31) ∨ wrapAbs raw = -2 ^ 31 := by
  have hlt := raw.isLt
  have hneg := BitVec.toNat_neg raw
  unfold wrapAbs
  rw [BitVec.msb_eq_decide]
  split
  · rename_i hmsb
    rw [BitVec.toInt_eq_toNat_cond, hneg]
    simp only [decide_eq_true_eq] at hmsb
    omega
  · rename_i hmsb
    rw [BitVec.toInt_eq_toNat_cond]
    simp only [decide_eq_true_eq] at hmsb
    omega

/-- Every `int` that is not negative is the absolute value of some word. -/
theorem wrapAbs_ofNat {v : Nat} (h : v < 2 ^ 31) : wrapAbs (BitVec.ofNat 32 v) = v := by
  have hv : (BitVec.ofNat 32 v).toNat = v := by
    rw [BitVec.toNat_ofNat]
    omega
  have hmsb : (BitVec.ofNat 32 v).msb = false := by
    rw [BitVec.msb_eq_decide, hv]
    simpa using h
  rw [wrapAbs, hmsb, if_neg Bool.false_ne_true, BitVec.toInt_eq_toNat_cond, hv]
  omega

theorem randomNum_eq (min max : Int) (raw : BitVec 32) :
    randomNum min max raw =
      if (wrapAbs raw).tmod (max - min) < min then min else (wrapAbs raw).tmod (max - min) := rfl

section Range

variable {min max : Int}

theorem randomNum_cases (hlt : min < max) (raw : BitVec 32) :
    randomNum min max raw = min ∨
      (min ≤ randomNum min max raw ∧ randomNum min max raw < max - min) := by
  rw [randomNum_eq]
  rcases wrapAbs_cases raw with ⟨hpos, -⟩ | hworst
  · have hmod := Int.tmod_lt_of_pos (wrapAbs raw) (show 0 < max - min by omega)
    split <;> omega
  · -- the remainder of a negative number is not positive
    have hmod : (wrapAbs raw).tmod (max - min) ≤ 0 := by
      rw [hworst, Int.neg_tmod]
      have := Int.tmod_nonneg (a := 2 ^ 31) (max - min) (by omega)
      omega
    split <;> omega

/-- **What a call can return**, as the generator's word goes over all of them. -/
theorem mem_range_randomNum (hmin : 0 ≤ min) (hlt : min < max) (hmax : max < 2 ^ 31) (v : Int) :
    v ∈ Set.range (randomNum min max) ↔ v = min ∨ (min ≤ v ∧ v < max - min) := by
  constructor
  · rintro ⟨raw, rfl⟩
    exact randomNum_cases hlt raw
  · rintro (rfl | ⟨hlo, hhi⟩)
    · refine ⟨BitVec.ofNat 32 0, ?_⟩
      rw [randomNum_eq, wrapAbs_ofNat (by decide), Nat.cast_zero, Int.zero_tmod]
      split <;> omega
    · obtain ⟨n, rfl⟩ := Int.eq_ofNat_of_zero_le (hmin.trans hlo)
      refine ⟨BitVec.ofNat 32 n, ?_⟩
      rw [randomNum_eq, wrapAbs_ofNat (by omega), Int.tmod_eq_of_lt (by omega) hhi,
        if_neg (not_lt.mpr hlo)]

/-- **`random_num` covers exactly its range** if the range starts at 0 or is a single
number, and otherwise does not. -/
theorem range_randomNum_iff (hmin : 0 ≤ min) (hlt : min < max) (hmax : max < 2 ^ 31) :
    Set.range (randomNum min max) = Set.Ico min max ↔ min = 0 ∨ max = min + 1 := by
  rw [Set.ext_iff]
  simp only [mem_range_randomNum hmin hlt hmax, Set.mem_Ico]
  constructor
  · intro hall
    have hlast := (hall (max - 1)).mpr (by omega)
    omega
  · rintro (rfl | rfl) v <;> omega

end Range

/-- The numbers put into the buffer. -/
theorem range_randomNum_num : Set.range (randomNum 0 10) = Set.Ico 0 10 :=
  (range_randomNum_iff (by decide) (by decide) (by decide)).mpr (.inl rfl)

theorem randomNum_wait (raw : BitVec 32) : randomNum 3 7 raw = 3 := by
  have := randomNum_cases (show (3 : Int) < 7 by decide) raw
  omega

/-- **Four, five and six are never drawn** as the seconds a producer sleeps. -/
theorem wait_misses_four :
    (∀ raw, randomNum 3 7 raw ≠ 4) ∧ Set.range (randomNum 3 7) ≠ Set.Ico 3 7 := by
  have hnever (raw : BitVec 32) : randomNum 3 7 raw ≠ 4 := by
    rw [randomNum_wait]
    decide
  refine ⟨hnever, fun heq => ?_⟩
  obtain ⟨raw, hraw⟩ : (4 : Int) ∈ Set.range (randomNum 3 7) := by
    rw [heq]
    decide
  exact hnever raw hraw

/-! ## Whole runs -/

/-- What the draws come to for an entry. -/
structure Job.Drawn (job : Job) : Prop where
  wait : job.wait = 3
  workTime : 2 ≤ job.entry.workTime ∧ job.entry.workTime ≤ 6
  num : 0 ≤ job.entry.num ∧ job.entry.num ≤ 9

/-- What a thread has drawn so far. -/
def Pc.Drawn : Pc → Prop
  | .produce (.asleep wait) => wait = 3
  | .produce (.ready job) | .produce (.locked job) | .produce (.pushing job)
  | .produce (.printing job) | .produce (.leaving job) => job.Drawn
  | _ => True

section Runs

variable {T : Type} [DecidableEq T] {s s' : State T}

theorem drawn_make (id : Nat) (raw raw' : BitVec 32) :
    Job.Drawn ⟨id, ⟨randomNum 0 10 raw', randomNum 2 9 raw⟩, 3⟩ := by
  have hwork := randomNum_cases (show (2 : Int) < 9 by decide) raw
  have hnum := randomNum_cases (show (0 : Int) < 10 by decide) raw'
  refine ⟨rfl, ?_, ?_⟩ <;> dsimp only <;> omega

/-- What threads have drawn, in a state. -/
structure DrawnOk (s : State T) : Prop where
  pc : ∀ t, (s.pc t).Drawn
  ended : ∀ job ∈ s.ended, job.Drawn

/-- A thread moves on, and what it has drawn is as it should be. -/
theorem DrawnOk.goto (h : DrawnOk s) {t : T} {pc : Pc} (hpc : s'.pc = Function.update s.pc t pc)
    (hended : ∀ job ∈ s'.ended, job.Drawn) (hnew : pc.Drawn) : DrawnOk s' := by
  refine ⟨fun u => ?_, hended⟩
  rw [hpc]
  by_cases hu : u = t
  · rw [hu, Function.update_self]
    exact hnew
  · rw [Function.update_of_ne hu]
    exact h.pc u

theorem DrawnOk.produce (h : DrawnOk s) {t : T} {raw raw' : BitVec 32} {p : ProducePc}
    (hpc : s.pc t = .produce p) (hstep : stepProduce s t raw raw' p = some s') : DrawnOk s' := by
  have hown : (Pc.produce p).Drawn := hpc ▸ h.pc t
  cases p with
  | start =>
      obtain rfl := Option.some.inj hstep
      exact h.goto rfl h.ended (randomNum_wait raw)
  | asleep wait =>
      obtain rfl := Option.some.inj hstep
      obtain rfl : wait = 3 := hown
      exact h.goto rfl h.ended (drawn_make _ raw raw')
  | ready job =>
      rw [stepProduce, Option.ite_none_right_eq_some] at hstep
      obtain rfl := Option.some.inj hstep.2
      exact h.goto rfl h.ended hown
  | locked job =>
      rw [stepProduce] at hstep
      split at hstep <;> obtain rfl := Option.some.inj hstep <;> exact h.goto rfl h.ended hown
  | pushing job =>
      rw [stepProduce] at hstep
      split at hstep <;> obtain rfl := Option.some.inj hstep <;> exact h.goto rfl h.ended hown
  | printing job =>
      obtain rfl := Option.some.inj hstep
      exact h.goto rfl h.ended hown
  | leaving job =>
      obtain rfl := Option.some.inj hstep
      exact h.goto rfl (List.forall_mem_cons.mpr ⟨hown, h.ended⟩) trivial

/-- A consumer draws nothing. -/
theorem DrawnOk.consume (h : DrawnOk s) {t : T} {c : ConsumePc}
    (hstep : stepConsume s t c = some s') : DrawnOk s' := by
  cases c with
  | start =>
      rw [stepConsume, Option.ite_none_right_eq_some] at hstep
      obtain rfl := Option.some.inj hstep.2
      exact h.goto rfl h.ended trivial
  | locked =>
      rw [stepConsume] at hstep
      split at hstep <;> obtain rfl := Option.some.inj hstep <;> exact h.goto rfl h.ended trivial
  | popping | working _ | leaving =>
      obtain rfl := Option.some.inj hstep
      exact h.goto rfl h.ended trivial

/-- **Whatever the generator gives, a producer sleeps three seconds** before each of its
entries, and no entry takes a consumer longer than six. -/
theorem reach_drawn (hs : (machine T).Reach s) : DrawnOk s := by
  refine hs.invariant ?_ ?_
  · intro s hs
    refine ⟨fun t => ?_, ?_⟩
    · rcases hs.pc t with hpc | hpc <;> rw [hpc] <;> trivial
    · rw [hs.ended]
      exact fun _ hjob => absurd hjob List.not_mem_nil
  · intro s a s' h _ hn
    change next s a = some s' at hn
    rw [next] at hn
    split at hn
    · rename_i p hpc
      exact h.produce hpc hn
    · exact h.consume hn

end Runs

end OsProjects.ProducerConsumer
