import OsProjects.Elevator.Queue

/-!
# The queue loses and duplicates nothing

`Holds l xs` says that the list from `nd->queue` is `xs`, through `next` and
backwards through `prev`. Whatever the two loops of `add_req` read where the head
has no sector, they stop at a node of the list, so `add_req` puts its request
somewhere into `xs` (`addReq_spec`); the other operations take one out.

`queue_report` is what then holds in every state of every run.
-/

namespace OsProjects.Elevator

open Framework

variable {Req : Type} {pos : Req → Nat} {l : Links (ListHead Req)}
  {xs ys zs : List Req} {r p : Req}

/-! ## Rings of requests -/

/-- The queue is `xs`. -/
def Holds (l : Links (ListHead Req)) (xs : List Req) : Prop :=
  Ring l .queue (xs.map .queuelist)

theorem queuelist_injective : Function.Injective (ListHead.queuelist : Req → ListHead Req) := by
  intro a b h
  cases h
  rfl

theorem mem_queuelists : ListHead.queuelist r ∈ xs.map ListHead.queuelist ↔ r ∈ xs :=
  List.mem_map_of_injective queuelist_injective

theorem Holds.nodup (h : Holds l xs) : xs.Nodup :=
  (List.nodup_cons.mp (Ring.nodup h)).2.of_map _

theorem Holds.backward (h : Holds l xs) :
    Visits l.prev .queue (xs.reverse.map .queuelist) .queue := by
  rw [List.map_reverse]
  exact Ring.backward h

theorem Holds.unique (hx : Holds l xs) (hy : Holds l ys) : xs = ys :=
  (List.map_injective_iff.mpr queuelist_injective) (Ring.unique hx hy)

/-- `p` is directly before `r`. -/
def Follows (xs : List Req) (p r : Req) : Prop := ∃ ys zs, xs = ys ++ p :: r :: zs

theorem Holds.former_iff (h : Holds l xs) (hr : r ∈ xs) :
    formerReq l r = some p ↔ Follows xs p r := by
  obtain ⟨ys, zs, rfl⟩ := List.append_of_mem hr
  have hprev : l.prev (.queuelist r) = (ys.map .queuelist).getLastD .queue := by
    unfold Holds at h
    rw [List.map_append] at h
    exact h.prev_at
  rw [formerReq, hprev]
  constructor
  · intro hp
    rcases List.eq_nil_or_concat' ys with rfl | ⟨ys, y, rfl⟩
    · cases hp
    · rw [List.map_append, List.map_singleton, List.getLastD_concat] at hp
      obtain rfl : y = p := Option.some.inj hp
      exact ⟨ys, zs, by simp⟩
  · rintro ⟨as, bs, heq⟩
    have hsplit : ys ++ r :: zs = (as ++ [p]) ++ r :: bs := by simpa using heq
    obtain ⟨rfl, -⟩ := split_unique h.nodup hsplit
    rw [List.map_append, List.map_singleton, List.getLastD_concat]
    rfl

theorem Holds.latter_iff (h : Holds l xs) (hp : p ∈ xs) :
    latterReq l p = some r ↔ Follows xs p r := by
  obtain ⟨ys, zs, rfl⟩ := List.append_of_mem hp
  have hnext : l.next (.queuelist p) = (zs.map .queuelist).headD .queue := by
    have hsplit : Ring l .queue ((ys ++ [p]).map .queuelist ++ zs.map .queuelist) := by
      rw [← List.map_append, List.append_assoc]
      exact h
    have hat := hsplit.next_at
    rwa [List.map_append, List.map_singleton, List.getLastD_concat] at hat
  rw [latterReq, hnext]
  constructor
  · intro hr
    cases zs with
    | nil => cases hr
    | cons z zs =>
        obtain rfl : z = r := Option.some.inj hr
        exact ⟨ys, zs, rfl⟩
  · rintro ⟨as, bs, heq⟩
    obtain ⟨-, rfl⟩ := split_unique h.nodup heq
    rfl

/-! ## The search of `add_req` -/

/-- A node of the queue: its head or a request of it. -/
abbrev OnQueue (xs : List Req) (x : ListHead Req) : Prop := x ∈ .queue :: xs.map .queuelist

section Search

variable {q : Nat} {stray : Nat → Nat} {fuel n : Nat} {x : ListHead Req}

/-- Whatever is read at the head, the search stops at a node it has come by. -/
theorem forwardLoop_closed {P : ListHead Req → Prop} (hclosed : ∀ y, P y → P (l.next y))
    {prev next : ListHead Req} (hprev : P prev) (hnext : P next)
    (hx : forwardLoop pos l q stray fuel n prev next = some x) : P x := by
  induction fuel generalizing n prev next with
  | zero => cases hx
  | succ fuel ih =>
      rw [forwardLoop] at hx
      split at hx
      · exact ih hnext (hclosed next hnext) hx
      · obtain rfl := Option.some.inj hx
        exact hprev

/-- The search backwards is a search forwards through the list turned round. -/
theorem backwardLoop_eq (prev next : ListHead Req) :
    backwardLoop pos l q stray fuel n prev next =
      forwardLoop pos ⟨l.prev, l.next⟩ q stray fuel n next prev := by
  induction fuel generalizing n prev next with
  | zero => rfl
  | succ fuel ih => simp only [backwardLoop, forwardLoop, ih]

theorem findPlace_onQueue (h : Holds l xs) {req : Req}
    (hx : findPlace pos l req stray fuel = some x) : OnQueue xs x := by
  have hnext : OnQueue xs (l.next .queue) := Ring.next_mem h List.mem_cons_self
  have hprev : OnQueue xs (l.prev .queue) := Ring.prev_mem h List.mem_cons_self
  unfold findPlace at hx
  simp only at hx
  split at hx
  · exact forwardLoop_closed (fun _ hy => Ring.next_mem h hy) hprev hnext hx
  · rw [backwardLoop_eq] at hx
    exact forwardLoop_closed (fun _ hy => Ring.prev_mem h hy) hnext hprev hx

end Search

/-- Listing the queue yields it. -/
theorem entries_spec {w : ListHead Req} {fuel : Nat}
    (hv : Visits l.next w (xs.map .queuelist) .queue) (hfuel : xs.length < fuel) :
    entries l fuel (l.next w) = some xs := by
  induction xs generalizing w fuel with
  | nil =>
      obtain ⟨fuel, rfl⟩ := Nat.exists_eq_succ_of_ne_zero (Nat.ne_of_gt hfuel)
      rw [hv.first]
      rfl
  | cons x xs ih =>
      obtain ⟨fuel, rfl⟩ := Nat.exists_eq_succ_of_ne_zero (Nat.ne_of_gt (Nat.zero_lt_of_lt hfuel))
      rw [hv.first]
      simp only [List.map_cons, List.headD_cons, entries]
      rw [ih hv.2 (Nat.lt_of_succ_lt_succ hfuel)]
      rfl

/-! ## The operations -/

variable [DecidableEq Req]

theorem Holds.empty_iff (h : Holds l xs) : listEmpty l .queue = true ↔ xs = [] := by
  rw [Ring.listEmpty_iff h, List.map_eq_nil_iff]

theorem Holds.add (ys zs : List Req) (h : Holds l (ys ++ zs)) (hr : r ∉ ys ++ zs) :
    Holds (listAdd l (.queuelist r) ((ys.map .queuelist).getLastD .queue)) (ys ++ r :: zs) := by
  unfold Holds at *
  rw [List.map_append] at h ⊢
  refine Ring.add h fun hmem => ?_
  rcases List.mem_cons.mp hmem with hhead | hmem
  · cases hhead
  · rw [← List.map_append, mem_queuelists] at hmem
    exact hr hmem

/-- Wherever on the list a request is added, it is put somewhere into the queue. -/
theorem Holds.add_onQueue (h : Holds l xs) (hr : r ∉ xs) {x : ListHead Req} (hx : OnQueue xs x) :
    ∃ ys zs, xs = ys ++ zs ∧ Holds (listAdd l (.queuelist r) x) (ys ++ r :: zs) := by
  rcases List.mem_cons.mp hx with rfl | hmem
  · exact ⟨[], xs, rfl, Holds.add [] _ h hr⟩
  · obtain ⟨q, hq, rfl⟩ := List.mem_map.mp hmem
    obtain ⟨as, bs, rfl⟩ := List.append_of_mem hq
    refine ⟨as ++ [q], bs, by simp, ?_⟩
    have hadd := Holds.add (as ++ [q]) bs (by simpa using h) (by simpa using hr)
    rwa [List.map_append, List.map_singleton, List.getLastD_concat] at hadd

theorem Holds.del (ys zs : List Req) (h : Holds l (ys ++ r :: zs)) :
    Holds (listDelInit l (.queuelist r)) (ys ++ zs) := by
  unfold Holds at *
  rw [List.map_append] at h ⊢
  exact Ring.del h

/-- Others may change the links of a request that is not queued. -/
theorem Holds.relink (h : Holds l xs) (hr : r ∉ xs) (nx pv : ListHead Req) :
    Holds ⟨Function.update l.next (.queuelist r) nx, Function.update l.prev (.queuelist r) pv⟩
      xs := by
  have hne : ∀ z ∈ ListHead.queue :: xs.map ListHead.queuelist, z ≠ .queuelist r := by
    rintro z hz rfl
    rcases List.mem_cons.mp hz with hz | hz
    · cases hz
    · exact hr (mem_queuelists.mp hz)
  exact Ring.congr h (fun z hz => Function.update_of_ne (hne z hz) _ _)
    fun z hz => Function.update_of_ne (hne z hz) _ _

/-- `add_req` adds its request after the head of an empty list, or after the node it
has found. -/
theorem addReq_cases (h : Holds l xs) {req : Req} {stray : Nat → Nat} {fuel : Nat}
    {out : Links (ListHead Req) × List Nat} (hout : addReq pos l req stray fuel = some out) :
    xs = [] ∧ out.1 = listAdd l (.queuelist req) .queue ∨
    xs ≠ [] ∧ ∃ x, findPlace pos l req stray fuel = some x ∧
      out.1 = listAdd l (.queuelist req) x := by
  unfold addReq at hout
  split at hout
  · rename_i hempty
    obtain rfl := Option.some.inj hout
    exact .inl ⟨h.empty_iff.mp hempty, rfl⟩
  · rename_i hempty
    split at hout
    · cases hout
    · rename_i x hx
      obtain ⟨rs, -, rfl⟩ := Option.map_eq_some_iff.mp hout
      exact .inr ⟨fun hnil => hempty (h.empty_iff.mpr hnil), x, hx, rfl⟩

/-- **`add_req` puts its request into the queue**, and changes nothing else
about it. -/
theorem addReq_spec (h : Holds l xs) {req : Req} (hnew : req ∉ xs) {stray : Nat → Nat}
    {fuel : Nat} {out : Links (ListHead Req) × List Nat}
    (hout : addReq pos l req stray fuel = some out) :
    ∃ ys zs, xs = ys ++ zs ∧ Holds out.1 (ys ++ req :: zs) := by
  obtain ⟨rfl, hlinks⟩ | ⟨-, x, hx, hlinks⟩ := addReq_cases h hout
  · rw [hlinks]
    exact ⟨[], [], rfl, Holds.add [] _ h hnew⟩
  · rw [hlinks]
    exact h.add_onQueue hnew (findPlace_onQueue h hx)

/-- **`dispatch_req` takes the first request.** -/
theorem dispatchReq_spec (h : Holds l xs) :
    ∃ l', dispatchReq l = (l', xs.head?, if xs = [] then 0 else 1) ∧ Holds l' xs.tail := by
  have hfirst : l.next .queue = (xs.map .queuelist).headD .queue := (Ring.forward h).first
  cases xs with
  | nil =>
      refine ⟨l, ?_, h⟩
      rw [dispatchReq, hfirst]
      rfl
  | cons r rs =>
      refine ⟨listDelInit l (.queuelist r), ?_, Holds.del [] rs h⟩
      rw [dispatchReq, hfirst]
      rfl

/-! ## Runs -/

/-- What a call does to the queue `xs` and to the log. -/
inductive QueueStep : Label Req → List Req → List (Event Req) → List Req → List (Event Req) →
    Prop where
  | add {req : Req} {stray : Nat → Nat} {fuel : Nat} {ys zs : List Req}
      {log : List (Event Req)} : req ∉ ys ++ zs →
      QueueStep (.add req stray fuel) (ys ++ zs) log (ys ++ req :: zs) (.added req :: log)
  | merge {r : Req} {ys zs : List Req} {log : List (Event Req)} :
      QueueStep (.merge r) (ys ++ r :: zs) log (ys ++ zs) (.merged r :: log)
  | dispatch {r : Req} {xs : List Req} {log : List (Event Req)} :
      QueueStep .dispatch (r :: xs) log xs (.dispatched r :: log)
  | idle {log : List (Event Req)} : QueueStep .dispatch [] log [] log
  | relink {req : Req} {nx pv : ListHead Req} {xs : List Req} {log : List (Event Req)} :
      QueueStep (.relink req nx pv) xs log xs log

/-- The queue, and the requests that are pending according to the log. -/
def Agrees (s : State Req) (xs : List Req) : Prop :=
  Holds s.links xs ∧ ∀ r, r ∈ xs ↔ pending s.log r = true

/-- **Inversion.** -/
theorem next_cases {s s' : State Req} {a : Label Req} (h : Agrees s xs)
    (hn : next pos s a = some s') :
    ∃ xs', Holds s'.links xs' ∧ QueueStep a xs s.log xs' s'.log := by
  obtain ⟨hh, hpend⟩ := h
  cases a with
  | add req stray fuel =>
      simp only [next] at hn
      split at hn
      · cases hn
      · rename_i hfree
        obtain ⟨out, hout, rfl⟩ := Option.map_eq_some_iff.mp hn
        have hnew : req ∉ xs := fun hmem => hfree ((hpend req).mp hmem)
        obtain ⟨ys, zs, rfl, hh'⟩ := addReq_spec hh hnew hout
        exact ⟨_, hh', .add hnew⟩
  | merge r =>
      simp only [next] at hn
      split at hn
      · rename_i hqueued
        obtain rfl := Option.some.inj hn
        obtain ⟨ys, zs, rfl⟩ := List.append_of_mem ((hpend r).mpr hqueued)
        exact ⟨_, hh.del, .merge⟩
      · cases hn
  | dispatch =>
      obtain ⟨l', hdisp, hh'⟩ := dispatchReq_spec hh
      simp only [next, hdisp] at hn
      cases xs with
      | nil =>
          obtain rfl := Option.some.inj hn
          exact ⟨[], hh, .idle⟩
      | cons r rs =>
          obtain rfl := Option.some.inj hn
          exact ⟨rs, hh', .dispatch⟩
  | relink req nx pv =>
      simp only [next] at hn
      split at hn
      · cases hn
      · rename_i hfree
        obtain rfl := Option.some.inj hn
        exact ⟨xs, hh.relink (fun hmem => hfree ((hpend req).mp hmem)) nx pv, .relink⟩

/-- The queue stays what the log says it is. -/
theorem QueueStep.pending {a : Label Req} {xs xs' : List Req} {log log' : List (Event Req)}
    (h : QueueStep a xs log xs' log') (hnodup : xs.Nodup)
    (hpend : ∀ r, r ∈ xs ↔ pending log r = true) (r : Req) :
    r ∈ xs' ↔ Elevator.pending log' r = true := by
  have hold := hpend r
  cases h with
  | add hnew =>
      rename_i req stray fuel ys zs
      rw [Elevator.pending]
      by_cases hr : req = r
      · simp [hr]
      · rw [if_neg hr, ← hold]
        simp [Ne.symm hr]
  | merge =>
      rename_i q ys zs
      rw [Elevator.pending]
      by_cases hr : q = r
      · subst hr
        simpa using (List.nodup_cons.mp (List.nodup_middle.mp hnodup)).1
      · rw [if_neg hr, ← hold]
        simp [Ne.symm hr]
  | dispatch =>
      rename_i q
      rw [Elevator.pending]
      by_cases hr : q = r
      · subst hr
        simpa using (List.nodup_cons.mp hnodup).1
      · rw [if_neg hr, ← hold]
        simp [Ne.symm hr]
  | idle | relink => exact hold

/-- Every addition is accounted for: merged, dispatched or still pending. -/
def Accounts (log : List (Event Req)) : Prop :=
  ∀ r, log.count (.added r) =
    log.count (.merged r) + log.count (.dispatched r) + (pending log r).toNat

theorem QueueStep.accounts {a : Label Req} {xs xs' : List Req} {log log' : List (Event Req)}
    (h : QueueStep a xs log xs' log') (hpend : ∀ r, r ∈ xs ↔ Elevator.pending log r = true)
    (hacc : Accounts log) : Accounts log' := by
  intro r
  have hold := hacc r
  cases h with
  | add hnew =>
      rename_i req stray fuel ys zs
      by_cases hr : req = r
      · subst hr
        have hfree : Elevator.pending log req = false :=
          Bool.eq_false_of_not_eq_true fun h => hnew ((hpend req).mpr h)
        rw [hfree] at hold
        rw [List.count_cons_self, List.count_cons_of_ne (by simp), List.count_cons_of_ne (by simp),
          Elevator.pending, if_pos rfl, hold]
        rfl
      · simp only [List.count_cons, Elevator.pending, if_neg hr]
        simp [hr, hold]
  | merge =>
      rename_i q ys zs
      by_cases hr : q = r
      · subst hr
        have hqueued : Elevator.pending log q = true := (hpend q).mp (by simp)
        rw [hqueued] at hold
        rw [List.count_cons_self, List.count_cons_of_ne (by simp), List.count_cons_of_ne (by simp),
          Elevator.pending, if_pos rfl, hold]
        exact Nat.add_right_comm _ _ 1
      · simp only [List.count_cons, Elevator.pending, if_neg hr]
        simp [hr, hold]
  | dispatch =>
      rename_i q
      by_cases hr : q = r
      · subst hr
        have hqueued : Elevator.pending log q = true := (hpend q).mp (by simp)
        rw [hqueued] at hold
        rw [List.count_cons_self, List.count_cons_of_ne (by simp), List.count_cons_of_ne (by simp),
          Elevator.pending, if_pos rfl, hold]
        rfl
      · simp only [List.count_cons, Elevator.pending, if_neg hr]
        simp [hr, hold]
  | idle | relink => exact hold

/-- The invariant of every run. -/
structure QueueOk (s : State Req) : Prop where
  queue : ∃ xs, Agrees s xs
  accounts : Accounts s.log

theorem queueOk_init (l : Links (ListHead Req)) : QueueOk ⟨initListHead l .queue, []⟩ := by
  refine ⟨⟨[], ring_init l .queue, fun r => ?_⟩, fun r => rfl⟩
  simp [pending]

theorem QueueOk.next {s s' : State Req} {a : Label Req} (hok : QueueOk s)
    (hn : next pos s a = some s') : QueueOk s' := by
  obtain ⟨⟨xs, hagrees⟩, hacc⟩ := hok
  obtain ⟨xs', hh', hstep⟩ := next_cases hagrees hn
  refine ⟨⟨xs', hh', ?_⟩, ?_⟩
  · exact hstep.pending hagrees.1.nodup hagrees.2
  · exact hstep.accounts hagrees.2 hacc

theorem reach_queueOk {s : State Req} (hs : (machine pos).Reach s) : QueueOk s := by
  refine hs.invariant ?_ ?_
  · rintro s ⟨l, rfl⟩
    exact queueOk_init l
  · exact fun s a s' hok _ hn => hok.next hn

/-- What holds of the queue `xs` of a state. -/
structure QueueReport (pos : Req → Nat) (s : State Req) (xs : List Req) : Prop where
  /-- `queue.next` and `queue.prev` lead through the same requests, in opposite orders. -/
  forward : Visits s.links.next .queue (xs.map .queuelist) .queue
  backward : Visits s.links.prev .queue (xs.reverse.map .queuelist) .queue
  /-- The requests on the ring are those pending, each once. -/
  once : xs.Nodup
  pending : ∀ r, r ∈ xs ↔ pending s.log r = true
  /-- A request is merged or handed to `elv_dispatch_sort` once for each time it is added. -/
  accounts : Accounts s.log
  former : ∀ r ∈ xs, ∀ p, formerReq s.links r = some p ↔ p ∈ xs ∧ latterReq s.links p = some r
  latter : ∀ p ∈ xs, ∀ r, latterReq s.links p = some r ↔ r ∈ xs ∧ formerReq s.links r = some p
  /-- `add_req` keeps the order of the requests it finds. -/
  order : ∀ req stray fuel s', next pos s (.add req stray fuel) = some s' →
    ∃ ys zs, xs = ys ++ zs ∧ Holds s'.links (ys ++ req :: zs)
  dispatch : (dispatchReq s.links).2 = (xs.head?, if xs = [] then 0 else 1)
  exit : exitBug s.links = true ↔ ∃ r, Elevator.pending s.log r = true

/-- **The queue loses and duplicates nothing**, whatever is read where the head
of the list has no sector, in every state that calls of `add_req` that return, of
`merge_req` and of `dispatch_req` lead to. -/
theorem queue_report (pos : Req → Nat) (s : State Req) (hs : (machine pos).Reach s) :
    ∃ xs, QueueReport pos s xs := by
  obtain ⟨⟨xs, hagrees⟩, hacc⟩ := reach_queueOk hs
  obtain ⟨hh, hpend⟩ := hagrees
  have hmem : ∀ {p r : Req}, Follows xs p r → p ∈ xs ∧ r ∈ xs := by
    rintro p r ⟨ys, zs, rfl⟩
    simp
  obtain ⟨l', hdisp, -⟩ := dispatchReq_spec hh
  refine ⟨xs, ⟨Ring.forward hh, hh.backward, hh.nodup, hpend, hacc, ?_, ?_, ?_, ?_, ?_⟩⟩
  · intro r hr p
    rw [hh.former_iff hr]
    constructor
    · intro hf
      exact ⟨(hmem hf).1, (hh.latter_iff (hmem hf).1).mpr hf⟩
    · rintro ⟨hp, hl⟩
      exact (hh.latter_iff hp).mp hl
  · intro p hp r
    rw [hh.latter_iff hp]
    constructor
    · intro hf
      exact ⟨(hmem hf).2, (hh.former_iff (hmem hf).2).mpr hf⟩
    · rintro ⟨hr, hf⟩
      exact (hh.former_iff hr).mp hf
  · intro req stray fuel s' hn
    obtain ⟨xs', hh', hstep⟩ := next_cases ⟨hh, hpend⟩ hn
    generalize s.log = log, s'.log = log' at hstep
    cases hstep with
    | add hnew => exact ⟨_, _, rfl, hh'⟩
  · rw [hdisp]
  · rw [exitBug, Bool.not_eq_true', ← Bool.not_eq_true, hh.empty_iff]
    constructor
    · intro hne
      obtain ⟨r, hr⟩ := List.exists_mem_of_ne_nil xs hne
      exact ⟨r, (hpend r).mp hr⟩
    · rintro ⟨r, hr⟩ rfl
      cases (hpend r).mpr hr

/-- Three requests are added; then the first is dispatched and another merged. -/
def threeRequests : List (Label Nat) :=
  [.add 10 (fun _ => 0) 5, .add 5 (fun _ => 0) 5, .add 7 (fun _ => 0) 5, .dispatch, .merge 5]

theorem queue_report_threeRequests : ∃ s, (machine id).Reach s ∧
    s.log = [.merged 5, .dispatched 10, .added 7, .added 5, .added 10] ∧
    ∃ xs, QueueReport id s xs := by
  have hrun : ((machine id).replay ⟨initListHead ⟨id, id⟩ .queue, []⟩ threeRequests).map
      State.log = some [.merged 5, .dispatched 10, .added 7, .added 5, .added 10] := by
    decide +kernel
  obtain ⟨s, hs, hlog⟩ := Option.map_eq_some_iff.mp hrun
  have hreach : (machine id).Reach s := Machine.Reach.replay (.init ⟨_, rfl⟩) hs
  exact ⟨s, hreach, hlog, queue_report id s hreach⟩

end OsProjects.Elevator
