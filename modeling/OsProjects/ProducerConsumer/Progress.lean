import OsProjects.ProducerConsumer.Delivery

/-!
# Nobody waits for ever

The mutex is held only between the lock and the unlock of one round. Inside, no step of
the holder can be refused, and four of them bring it to the unlock (`Pc.left`). So a
thread that finds the mutex taken is held up by four steps of one other thread at the
most (`never_stuck`).
-/

namespace OsProjects.ProducerConsumer

open Framework

section Holder

variable {T : Type} [DecidableEq T] {s s' : State T} {t : T}

/-- How many steps a thread that holds the mutex has left to go. -/
def Pc.left : Pc → Nat
  | .produce (.locked _) | .consume .locked => 4
  | .produce (.pushing _) | .consume .popping => 3
  | .produce (.printing _) | .consume (.working _) => 2
  | .produce (.leaving _) | .consume .leaving => 1
  | _ => 0

theorem Pc.left_le (p : Pc) : p.left ≤ 4 := by
  cases p with
  | produce p => cases p <;> simp [Pc.left]
  | consume c => cases c <;> simp [Pc.left]

/-- A step of the holder: it is not refused, and leaves less to do. -/
theorem next_inside (hin : (s.pc t).inside = true) (raw raw' : BitVec 32) :
    ∃ s' p, next s ⟨t, raw, raw'⟩ = some s' ∧ s'.pc = Function.update s.pc t p ∧
      p.left < (s.pc t).left ∧ (p.inside = true ∨ s'.stop = none) := by
  cases hpc : s.pc t with
  | produce p =>
      rw [hpc] at hin
      rw [next, hpc]
      dsimp only
      cases p with
      | start | asleep _ | ready _ => cases hin
      | locked job =>
          rw [stepProduce]
          split
          · exact ⟨_, .produce (.pushing job), rfl, rfl, by simp [Pc.left], .inl rfl⟩
          · exact ⟨_, .produce (.leaving job), rfl, rfl, by simp [Pc.left], .inl rfl⟩
      | pushing job =>
          rw [stepProduce]
          split <;> exact ⟨_, .produce (.printing job), rfl, rfl, by simp [Pc.left], .inl rfl⟩
      | printing job => exact ⟨_, .produce (.leaving job), rfl, rfl, by simp [Pc.left], .inl rfl⟩
      | leaving job => exact ⟨_, .produce .start, rfl, rfl, by simp [Pc.left], .inr rfl⟩
  | consume c =>
      rw [hpc] at hin
      rw [next, hpc]
      dsimp only
      cases c with
      | start => cases hin
      | locked =>
          rw [stepConsume]
          split
          · exact ⟨_, .consume .popping, rfl, rfl, by simp [Pc.left], .inl rfl⟩
          · exact ⟨_, .consume .leaving, rfl, rfl, by simp [Pc.left], .inl rfl⟩
      | popping => exact ⟨_, .consume (.working _), rfl, rfl, by simp [Pc.left], .inl rfl⟩
      | working e => exact ⟨_, .consume .leaving, rfl, rfl, by simp [Pc.left], .inl rfl⟩
      | leaving => exact ⟨_, .consume .start, rfl, rfl, by simp [Pc.left], .inr rfl⟩

/-- The holder left alone gives the mutex back, and the others are where they were. -/
theorem released (hin : (s.pc t).inside = true) :
    ∃ as : List (Label T), as.length ≤ (s.pc t).left ∧ (∀ a ∈ as, a.tid = t) ∧
      ∃ s', (machine T).replay s as = some s' ∧ s'.stop = none ∧ ∀ u ≠ t, s'.pc u = s.pc u := by
  induction hn : (s.pc t).left using Nat.strong_induction_on generalizing s with
  | h n ih =>
      obtain ⟨s₁, p, hstep, hpc, hlt, hend⟩ := next_inside hin 0 0
      have hothers : ∀ u ≠ t, s₁.pc u = s.pc u := fun u hu => by
        rw [hpc, Function.update_of_ne hu]
      have hmine : s₁.pc t = p := by rw [hpc, Function.update_self]
      rcases hend with hp | hfree
      · obtain ⟨as, hlen, htid, s', hrun, hfree, hrest⟩ :=
          ih p.left (hn ▸ hlt) (by rw [hmine]; exact hp) (by rw [hmine])
        refine ⟨⟨t, 0, 0⟩ :: as, ?_, ?_, s', ?_, hfree, fun u hu => ?_⟩
        · rw [List.length_cons]
          omega
        · exact List.forall_mem_cons.mpr ⟨rfl, htid⟩
        · rw [Machine.replay_of_next hstep]
          exact hrun
        · rw [hrest u hu, hothers u hu]
      · refine ⟨[⟨t, 0, 0⟩], ?_, by simp, s₁, ?_, hfree, hothers⟩
        · rw [List.length_singleton]
          omega
        · rw [Machine.replay_of_next hstep]
          rfl

/-- Whoever holds the mutex is inside. -/
theorem reach_returned (hs : (machine T).Reach s) : s.view.Returned := by
  refine @Machine.ReachVia.invariant _ _ _ _ (fun s => s.view.Returned) ?_ ?_ s hs
  · intro s (h0 : Booted s) t ht
    rw [State.view, h0.stop] at ht
    cases ht
  · exact fun s a s' h _ hn => h.step (next_cases hn).lockStep

/-- Outside, only a mutex that is taken holds a thread up. -/
theorem next_outside (hout : (s.pc t).inside = false) (hfree : s.stop = none)
    (raw raw' : BitVec 32) : ∃ s', next s ⟨t, raw, raw'⟩ = some s' := by
  cases hpc : s.pc t with
  | produce p =>
      rw [hpc] at hout
      rw [next, hpc]
      dsimp only
      cases p with
      | start | asleep _ => exact ⟨_, rfl⟩
      | ready job => exact ⟨_, if_pos hfree⟩
      | locked _ | pushing _ | printing _ | leaving _ => cases hout
  | consume c =>
      rw [hpc] at hout
      rw [next, hpc]
      dsimp only
      cases c with
      | start => exact ⟨_, if_pos hfree⟩
      | locked | popping | working _ | leaving => cases hout

end Holder

/-- **No thread is ever stuck.** In every reachable state, with any number of producers and
consumers, at most four steps of the thread that holds the mutex are needed for any given
thread to take its next step. -/
theorem never_stuck (T : Type) [DecidableEq T] (s : State T) (hs : (machine T).Reach s) (t : T)
    (raw raw' : BitVec 32) :
    ∃ as : List (Label T), as.length ≤ 4 ∧ (∀ a ∈ as, s.stop = some a.tid ∧ a.tid ≠ t) ∧
      ∃ s', (machine T).replay s as = some s' ∧ s'.pc t = s.pc t ∧
        ∃ s'', next s' ⟨t, raw, raw'⟩ = some s'' := by
  cases hin : (s.pc t).inside with
  | true =>
      obtain ⟨s', p, hstep, -⟩ := next_inside hin raw raw'
      exact ⟨[], Nat.zero_le 4, by simp, s, rfl, rfl, s', hstep⟩
  | false =>
      cases hstop : s.stop with
      | none => exact ⟨[], Nat.zero_le 4, by simp, s, rfl, rfl, next_outside hin hstop raw raw'⟩
      | some u =>
          have hu : (s.pc u).inside = true := reach_returned hs u hstop
          have hne : t ≠ u := by
            rintro rfl
            rw [hin] at hu
            cases hu
          obtain ⟨as, hlen, htid, s', hrun, hfree, hrest⟩ := released hu
          refine ⟨as, hlen.trans (Pc.left_le _), fun a ha => ?_, s', hrun, hrest t hne, ?_⟩
          · rw [htid a ha]
            exact ⟨rfl, hne.symm⟩
          · exact next_outside (by rw [hrest t hne]; exact hin) hfree raw raw'

/-- The producer has the mutex, and the consumer waits for it. -/
theorem never_stuck_locked : ∃ s, (machine Thread).Reach s ∧ s.stop = some .producer ∧
    next s ⟨.consumer, 0, 0⟩ = none ∧
    ∃ as s' s'', as ≠ [] ∧ as.length ≤ 4 ∧ (machine Thread).replay s as = some s' ∧
      next s' ⟨.consumer, 0, 0⟩ = some s'' := by
  have hrun : ((machine Thread).replay start (List.replicate 3 ⟨.producer, 5, 7⟩)).map
      (fun s => (s.stop, (next s ⟨.consumer, 0, 0⟩).isNone)) = some (some .producer, true) := by
    decide +kernel
  obtain ⟨s, hs, hend⟩ := Option.map_eq_some_iff.mp hrun
  obtain ⟨hstop, hwaits⟩ : s.stop = some .producer ∧ next s ⟨.consumer, 0, 0⟩ = none := by
    simpa using hend
  have hreach : (machine Thread).Reach s := Machine.Reach.replay (.init booted_start) hs
  obtain ⟨as, hlen, -, s', hrun', -, s'', hnext⟩ := never_stuck Thread s hreach .consumer 0 0
  refine ⟨s, hreach, hstop, hwaits, as, s', s'', ?_, hlen, hrun', hnext⟩
  rintro rfl
  obtain rfl := Option.some.inj hrun'
  rw [hwaits] at hnext
  cases hnext

end OsProjects.ProducerConsumer
