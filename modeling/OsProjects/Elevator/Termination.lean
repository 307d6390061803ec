import OsProjects.Elevator.Rings

/-!
# When the search of `add_req` ends

The two loops of `add_req` have no test for the end of the list, only a
comparison of positions. Backwards the first request of the queue stops the
search at the latest: it is not below the new one, or the search would have gone
forwards. Forwards nothing stops it before the head of the list unless some
queued request is at or above the new position (`search_ends_iff`); and what is
then read at the head may let the search go round for ever (`addReq_endless`). As long
as it does not get there, what is there makes no difference (`addReq_congr`).
-/

namespace OsProjects.Elevator

open Framework

variable {Req : Type}

/-! ## The comparisons -/

section Compared

variable (pos : Req → Nat) (l : Links (ListHead Req)) (p : Nat) (stray : Nat → Nat)

/-- The nodes the position of which `forwardLoop` compares with. -/
def forwardCompared : Nat → Nat → ListHead Req → List (ListHead Req)
  | 0, _, _ => []
  | fuel + 1, n, next =>
      next :: if p > blkRqPos pos (stray n) next then forwardCompared fuel (n + 1) (l.next next)
        else []

/-- The same for `backwardLoop`. -/
def backwardCompared : Nat → Nat → ListHead Req → List (ListHead Req)
  | 0, _, _ => []
  | fuel + 1, n, prev =>
      prev :: if p > blkRqPos pos (stray n) prev then backwardCompared fuel (n + 1) (l.prev prev)
        else []

end Compared

/-- The nodes taken for requests by the comparisons of `add_req`: the one before
the loops, and then those of the loop it enters. -/
def compared [DecidableEq Req] (pos : Req → Nat) (l : Links (ListHead Req)) (req : Req)
    (stray : Nat → Nat) (fuel : Nat) : List (ListHead Req) :=
  if listEmpty l .queue then []
  else
    let next := l.next .queue
    let prev := l.prev .queue
    next :: if pos req > blkRqPos pos (stray 0) next then
        forwardCompared pos l (pos req) stray fuel 0 next
      else backwardCompared pos l (pos req) stray fuel 0 prev

variable {pos : Req → Nat} {l : Links (ListHead Req)} {xs zs : List Req} {q : Nat}
  {stray : Nat → Nat} {fuel n : Nat}

theorem backwardCompared_eq (prev : ListHead Req) :
    backwardCompared pos l q stray fuel n prev =
      forwardCompared pos ⟨l.prev, l.next⟩ q stray fuel n prev := by
  induction fuel generalizing n prev with
  | zero => rfl
  | succ fuel ih => simp only [backwardCompared, forwardCompared, ih]

/-- **What is at the head does not matter** to a loop that does not compare with it: it
reads no other positions than those of the nodes listed. -/
theorem forwardLoop_congr {next : ListHead Req}
    (h : ListHead.queue ∉ forwardCompared pos l q stray fuel n next) (stray' : Nat → Nat)
    (prev : ListHead Req) :
    forwardLoop pos l q stray' fuel n prev next = forwardLoop pos l q stray fuel n prev next := by
  induction fuel generalizing n prev next with
  | zero => rfl
  | succ fuel ih =>
      rw [forwardCompared] at h
      obtain ⟨hhead, hrest⟩ := List.ne_and_not_mem_of_not_mem_cons h
      have hsame : blkRqPos pos (stray' n) next = blkRqPos pos (stray n) next := by
        cases next with
        | queue => exact absurd rfl hhead
        | queuelist r => rfl
      rw [forwardLoop, forwardLoop, hsame]
      split
      · rename_i hgo
        rw [if_pos hgo] at hrest
        exact ih hrest next
      · rfl

theorem backwardLoop_congr {prev : ListHead Req}
    (h : ListHead.queue ∉ backwardCompared pos l q stray fuel n prev) (stray' : Nat → Nat)
    (next : ListHead Req) :
    backwardLoop pos l q stray' fuel n prev next = backwardLoop pos l q stray fuel n prev next := by
  rw [backwardCompared_eq] at h
  rw [backwardLoop_eq, backwardLoop_eq]
  exact forwardLoop_congr h stray' next

/-- So for `add_req` as a whole, and the nodes it compares with. -/
theorem addReq_congr [DecidableEq Req] {req : Req}
    (h : ListHead.queue ∉ compared pos l req stray fuel) (stray' : Nat → Nat) :
    addReq pos l req stray' fuel = addReq pos l req stray fuel := by
  unfold addReq
  by_cases hempty : listEmpty l .queue = true
  · rw [if_pos hempty, if_pos hempty]
  · rw [compared, if_neg hempty] at h
    obtain ⟨hhead, hrest⟩ := List.ne_and_not_mem_of_not_mem_cons h
    have hsame : blkRqPos pos (stray' 0) (l.next .queue) =
        blkRqPos pos (stray 0) (l.next .queue) := by
      cases hnext : l.next .queue with
      | queue => exact absurd hnext.symm hhead
      | queuelist r => rfl
    have hplace : findPlace pos l req stray' fuel = findPlace pos l req stray fuel := by
      unfold findPlace
      simp only [hsame]
      split
      · rename_i hgo
        rw [if_pos hgo] at hrest
        exact forwardLoop_congr hrest stray' _
      · rename_i hgo
        rw [if_neg hgo] at hrest
        exact backwardLoop_congr hrest stray' _
    rw [if_neg hempty, if_neg hempty, hplace]

/-! ## Searches that end, and searches that do not -/

theorem ListHead.queue_ne {r : Req} : (ListHead.queue : ListHead Req) ≠ .queuelist r := by
  intro h
  cases h

theorem stop_tail {z : Req} (hstop : ∃ r ∈ z :: zs, q ≤ pos r) (hz : pos z < q) :
    ∃ r ∈ zs, q ≤ pos r := by
  obtain ⟨r, hr, hqr⟩ := hstop
  rcases List.mem_cons.mp hr with rfl | hr
  · exact absurd hz (not_lt.mpr hqr)
  · exact ⟨r, hr, hqr⟩

/-- **A request at or above `q` stops the search**, before it gets to the head. -/
theorem forwardLoop_ends {w prev : ListHead Req}
    (hv : Visits l.next w (zs.map .queuelist) .queue) (hstop : ∃ r ∈ zs, q ≤ pos r)
    (hfuel : zs.length < fuel) :
    ∃ x, forwardLoop pos l q stray fuel n prev (l.next w) = some x := by
  induction zs generalizing fuel n w prev with
  | nil =>
      obtain ⟨r, hr, -⟩ := hstop
      cases hr
  | cons z zs ih =>
      obtain ⟨fuel, rfl⟩ := Nat.exists_eq_succ_of_ne_zero (Nat.ne_zero_of_lt hfuel)
      rw [hv.first, List.map_cons, List.headD_cons, forwardLoop]
      split
      · rename_i hz
        exact ih hv.2 (stop_tail hstop hz) (Nat.lt_of_succ_lt_succ hfuel)
      · exact ⟨prev, rfl⟩

theorem forwardCompared_not_head {w : ListHead Req}
    (hv : Visits l.next w (zs.map .queuelist) .queue) (hstop : ∃ r ∈ zs, q ≤ pos r) :
    ListHead.queue ∉ forwardCompared pos l q stray fuel n (l.next w) := by
  induction zs generalizing fuel n w with
  | nil =>
      obtain ⟨r, hr, -⟩ := hstop
      cases hr
  | cons z zs ih =>
      cases fuel with
      | zero => exact List.not_mem_nil
      | succ fuel =>
          rw [hv.first, List.map_cons, List.headD_cons, forwardCompared]
          apply List.not_mem_cons_of_ne_of_not_mem ListHead.queue_ne
          split
          · rename_i hz
            exact ih hv.2 (stop_tail hstop hz)
          · exact List.not_mem_nil

/-- With everything below `q` the search gets to the head. -/
theorem forwardCompared_head {w : ListHead Req}
    (hv : Visits l.next w (zs.map .queuelist) .queue) (hall : ∀ r ∈ zs, pos r < q) :
    ListHead.queue ∈ forwardCompared pos l q stray (zs.length + 1) n (l.next w) := by
  induction zs generalizing n w with
  | nil =>
      rw [hv.first]
      exact List.mem_cons_self
  | cons z zs ih =>
      rw [hv.first, List.map_cons, List.headD_cons, forwardCompared]
      have hz : q > blkRqPos pos (stray n) (.queuelist z) := hall z List.mem_cons_self
      rw [if_pos hz]
      apply List.mem_cons_of_mem
      exact ih hv.2 fun r hr => hall r (List.mem_cons_of_mem z hr)

/-- **Nothing stops the search** that finds everything below `q`, on any nodes that
`next` does not lead out of. -/
theorem forwardLoop_endless {P : ListHead Req → Prop} (hclosed : ∀ x, P x → P (l.next x))
    (hbelow : ∀ i x, P x → blkRqPos pos (stray i) x < q) {prev next : ListHead Req}
    (hnext : P next) : forwardLoop pos l q stray fuel n prev next = none := by
  induction fuel generalizing n prev next with
  | zero => rfl
  | succ fuel ih =>
      rw [forwardLoop, if_pos (hbelow n next hnext)]
      exact ih (hclosed next hnext)

/-! ## `add_req` -/

section AddReq

variable {req : Req}

/-- Both directions at once: the search ends if some request is not below the new
one. -/
theorem findPlace_ends (h : Holds l xs) (hstop : ∃ r ∈ xs, pos req ≤ pos r)
    (hfuel : xs.length < fuel) : ∃ x, findPlace pos l req stray fuel = some x := by
  obtain ⟨r, hr, hle⟩ := hstop
  obtain ⟨f, rest, rfl⟩ := List.exists_cons_of_ne_nil (List.ne_nil_of_mem hr)
  have hfirst : l.next .queue = .queuelist f := (Ring.forward h).first
  unfold findPlace
  simp only
  split
  · exact forwardLoop_ends (Ring.forward h) ⟨r, hr, hle⟩ hfuel
  · rename_i hf
    rw [hfirst] at hf
    rw [backwardLoop_eq]
    -- the first request is at the end of the way back
    apply forwardLoop_ends (l := ⟨l.prev, l.next⟩) h.backward
    · exact ⟨f, by simp, not_lt.mp hf⟩
    · rwa [List.length_reverse]

variable [DecidableEq Req]

/-- It never takes the head for a request then. -/
theorem compared_not_head (h : Holds l xs) (hstop : ∃ r ∈ xs, pos req ≤ pos r) :
    ListHead.queue ∉ compared pos l req stray fuel := by
  obtain ⟨r, hr, hle⟩ := hstop
  obtain ⟨f, rest, rfl⟩ := List.exists_cons_of_ne_nil (List.ne_nil_of_mem hr)
  have hfirst : l.next .queue = .queuelist f := (Ring.forward h).first
  unfold compared
  split
  · exact List.not_mem_nil
  · apply List.not_mem_cons_of_ne_of_not_mem
    · rw [hfirst]
      exact ListHead.queue_ne
    · split
      · exact forwardCompared_not_head (Ring.forward h) ⟨r, hr, hle⟩
      · rename_i hf
        rw [hfirst] at hf
        rw [backwardCompared_eq]
        apply forwardCompared_not_head (l := ⟨l.prev, l.next⟩) h.backward
        exact ⟨f, by simp, not_lt.mp hf⟩

/-- Once it has found a place, `add_req` returns: what it prints is a ring again. -/
theorem addReq_returns (h : Holds l xs) (hnew : req ∉ xs) (hne : xs ≠ []) {x : ListHead Req}
    (hx : findPlace pos l req stray fuel = some x) (hfuel : xs.length + 1 < fuel) :
    ∃ out, addReq pos l req stray fuel = some out := by
  obtain ⟨ys, zs, rfl, hadd⟩ := h.add_onQueue hnew (findPlace_onQueue h hx)
  have hlen : (ys ++ req :: zs).length < fuel := by
    simpa [Nat.add_assoc] using hfuel
  have hlist := entries_spec (Ring.forward hadd) hlen
  have hempty : ¬ listEmpty l .queue = true := fun he => hne (h.empty_iff.mp he)
  unfold addReq
  rw [if_neg hempty, hx]
  simp only [hlist, Option.map_some]
  exact ⟨_, rfl⟩

/-- If nothing stops the search, the head is compared with. -/
theorem compared_head (h : Holds l xs) (hne : xs ≠ []) (hall : ∀ r ∈ xs, pos r < pos req) :
    ListHead.queue ∈ compared pos l req stray (xs.length + 1) := by
  obtain ⟨f, rest, rfl⟩ := List.exists_cons_of_ne_nil hne
  have hfirst : l.next .queue = .queuelist f := (Ring.forward h).first
  have hempty : ¬ listEmpty l .queue = true := fun he => hne (h.empty_iff.mp he)
  have hup : pos req > blkRqPos pos (stray 0) (l.next .queue) := by
    rw [hfirst]
    exact hall f List.mem_cons_self
  unfold compared
  rw [if_neg hempty]
  apply List.mem_cons_of_mem
  rw [if_pos hup]
  exact forwardCompared_head (Ring.forward h) hall

/-- **`add_req` ends, and compares with requests only, exactly if the queue is empty
or some queued request is at or above the new one**: for a position above all
queued ones the head is taken for a request. -/
theorem search_ends_iff (h : Holds l xs) (hnew : req ∉ xs) (stray : Nat → Nat) :
    ((∃ fuel out, addReq pos l req stray fuel = some out) ∧
      ∀ fuel, ListHead.queue ∉ compared pos l req stray fuel) ↔
    (xs = [] ∨ ∃ r ∈ xs, pos req ≤ pos r) := by
  constructor
  · rintro ⟨-, hcompared⟩
    by_contra hcon
    push Not at hcon
    exact hcompared _ (compared_head h hcon.1 hcon.2)
  · rintro (rfl | hstop)
    · have hempty : listEmpty l .queue = true := h.empty_iff.mpr rfl
      refine ⟨⟨0, _, by rw [addReq, if_pos hempty]⟩, fun fuel => ?_⟩
      rw [compared, if_pos hempty]
      exact List.not_mem_nil
    · have hne : xs ≠ [] := by
        obtain ⟨r, hr, -⟩ := hstop
        exact List.ne_nil_of_mem hr
      obtain ⟨x, hx⟩ : ∃ x, findPlace pos l req stray (xs.length + 2) = some x :=
        findPlace_ends h hstop (Nat.lt_add_of_pos_right Nat.two_pos)
      exact ⟨⟨_, addReq_returns h hnew hne hx (Nat.lt_succ_self _)⟩,
        fun fuel => compared_not_head h hstop⟩

/-- **A queue `add_req` goes round for ever**: everything is below the new request,
what is read at the head included. -/
theorem addReq_endless (h : Holds l xs) (hne : xs ≠ []) (hall : ∀ r ∈ xs, pos r < pos req)
    (hhead : ∀ i, stray i < pos req) : addReq pos l req stray fuel = none := by
  have hempty : ¬ listEmpty l .queue = true := fun he => hne (h.empty_iff.mp he)
  have hbelow : ∀ i x, OnQueue xs x → blkRqPos pos (stray i) x < pos req := by
    intro i x hx
    rcases List.mem_cons.mp hx with rfl | hx
    · exact hhead i
    · obtain ⟨r, hr, rfl⟩ := List.mem_map.mp hx
      exact hall r hr
  have hclosed : ∀ x, OnQueue xs x → OnQueue xs (l.next x) := fun x hx => Ring.next_mem h hx
  have hnext : OnQueue xs (l.next .queue) := hclosed _ List.mem_cons_self
  have hplace : findPlace pos l req stray fuel = none := by
    rw [findPlace, if_pos (hbelow 0 _ hnext)]
    exact forwardLoop_endless hclosed hbelow hnext
  rw [addReq, if_neg hempty, hplace]

end AddReq

/-! ## Two queues -/

/-- The links of a queue with the requests `xs`, added one after the other behind the
head. -/
def linked (xs : List Nat) : Links (ListHead Nat) :=
  xs.foldr (fun r l => listAdd l (.queuelist r) .queue) (initListHead ⟨id, id⟩ .queue)

theorem linked_holds {xs : List Nat} (h : xs.Nodup) : Holds (linked xs) xs := by
  induction xs with
  | nil => exact ring_init _ _
  | cons r xs ih =>
      obtain ⟨hr, hxs⟩ := List.nodup_cons.mp h
      exact Holds.add [] xs (ih hxs) hr

/-- A request at 7 is put between those at 10 and 5. -/
theorem search_ends_at_seven :
    ((∃ fuel out, addReq id (linked [10, 5]) 7 (fun _ => 0) fuel = some out) ∧
      ∀ fuel, ListHead.queue ∉ compared id (linked [10, 5]) 7 (fun _ => 0) fuel) :=
  (search_ends_iff (linked_holds (by decide)) (by decide) _).mpr (.inr ⟨10, by decide, by decide⟩)

/-- A request at 10 is above the only one queued, at 5; with zeros at the head
`add_req` never returns. -/
theorem search_at_ten_endless :
    Holds (linked [5]) [5] ∧ 10 ∉ [5] ∧
    (∀ fuel, addReq id (linked [5]) 10 (fun _ => 0) fuel = none) ∧
    ListHead.queue ∈ compared id (linked [5]) 10 (fun _ => 0) 2 := by
  have hholds : Holds (linked [5]) [5] := linked_holds (by decide)
  refine ⟨hholds, by decide, fun fuel => ?_, ?_⟩
  · exact addReq_endless hholds (by decide) (by decide) (fun _ => by decide)
  · exact compared_head hholds (by decide) (by decide)

end OsProjects.Elevator
