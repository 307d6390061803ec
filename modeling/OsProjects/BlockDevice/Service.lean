import OsProjects.BlockDevice.Completion

/-!
# Every request once

The loop of `sbd_crypt_request` with books: requests have numbers, and each use of
a request and each completion is written down. `serve` is the loop of the driver
with these books (`serve_requestLoop`).

A request that is not one of the file system's is completed, and then the loop
comes back to it. `served_iff` says what else can go wrong: a transfer that does not
end, or whose dumps fault. On all other queues the loop ends, having completed each
request once and touched none afterwards. Where there is no first page to be dumped,
every transfer that passes the check is one that faults (`faults_of_unreadable`).
-/

namespace OsProjects.BlockDevice

variable {n : Nat} {κ : Type}

/-! ## The loop, with books -/

/-- The driver reads a request, or completes it. -/
inductive Event where
  | use (i : Nat)
  | complete (i : Nat)
deriving DecidableEq, Repr

/-- The loop at its test, with `req` in hand. -/
structure Serving where
  dev : Device
  req : Option (Request × Nat)
  queue : List (Request × Nat)
  log : List Completion
  fault : Bool
  events : List Event              -- latest first

/-- `req = blk_fetch_request(q)` -/
def Serving.fetch (s : Serving) : Serving := { s with req := s.queue.head?, queue := s.queue.tail }

/-- The requests are numbered from 0 on. -/
def Serving.start (dev : Device) (queue : List Request) : Serving :=
  Serving.fetch ⟨dev, none, queue.zipIdx, [], false, []⟩

/-- Without the books. -/
def Serving.run (s : Serving) : Run := ⟨s.dev, s.queue.map Prod.fst, s.log, s.fault⟩

/-- The body of the loop; `none` if its transfer does not end. -/
def round (cfg : Config n κ) (s : Serving) : Request × Nat → Option Serving
  | (req, i) =>
      if req.cmdType ≠ .fs then
        -- `continue`, with the same `req`
        some { s with
          log := s.log ++ [.all req (-5)]
          events := .complete i :: .use i :: s.events }
      else
        match sbdCryptTransfer cfg s.dev req.pos req.curSectors req.curBuffer req.write with
        | none => none
        | some t =>
            if t.fault then
              some { s with dev := t.dev, fault := true, events := .use i :: s.events }
            else if req.endCur.segs ≠ [] then
              some { s with
                dev := t.dev
                req := some (req.endCur, i)
                log := s.log ++ req.completed t.buffer
                events := .use i :: s.events }
            else
              some (Serving.fetch { s with
                dev := t.dev
                log := s.log ++ req.completed t.buffer
                events := .complete i :: .use i :: s.events })

/-- `while (req != NULL)` -/
def serve (cfg : Config n κ) : Nat → Serving → Option Serving
  | 0, _ => none
  | fuel + 1, s =>
      match s.req with
      | none => some s
      | some req =>
          (round cfg s req).bind fun s' => if s'.fault then some s' else serve cfg fuel s'

/-- Nothing is used that was completed earlier. -/
def Clean : List Event → Prop
  | [] => True
  | .use i :: earlier => .complete i ∉ earlier ∧ Clean earlier
  | .complete _ :: earlier => Clean earlier

/-- The loop ends, without a fault and with the queue empty; it has completed each request
once, and used none after that. -/
def Served (cfg : Config n κ) (dev : Device) (queue : List Request) : Prop :=
  ∃ fuel s, sbdCryptRequest cfg fuel dev queue = some s.run ∧ s.run.fault = false ∧
    s.run.queue = [] ∧ serve cfg fuel (.start dev queue) = some s ∧
    (∀ i < queue.length, s.events.count (.complete i) = 1) ∧ Clean s.events

/-- **The books change nothing.** -/
theorem serve_requestLoop (cfg : Config n κ) (fuel : Nat) (s : Serving) (hsafe : s.fault = false) :
    requestLoop cfg fuel (s.req.map Prod.fst) s.run = (serve cfg fuel s).map Serving.run := by
  induction fuel generalizing s with
  | zero => rfl
  | succ fuel ih =>
      obtain ⟨dev, req, queue, log, fault, events⟩ := s
      obtain rfl : fault = false := hsafe
      cases req with
      | none => rfl
      | some req =>
          obtain ⟨req, i⟩ := req
          simp only [Option.map_some, requestLoop, serve, round, Serving.run]
          by_cases hfs : req.cmdType = .fs
          · rw [if_neg (not_not.mpr hfs), if_neg (not_not.mpr hfs)]
            cases sbdCryptTransfer cfg dev req.pos req.curSectors req.curBuffer req.write with
            | none => rfl
            | some t =>
                by_cases hfault : t.fault = true
                · simp only [if_pos hfault, Option.bind_some, if_true, Option.map_some]
                  rfl
                · by_cases hmore : req.endCur.segs = []
                  · simp only [if_neg hfault, if_neg (not_not.mpr hmore), Option.bind_some,
                      Serving.fetch, Bool.false_eq_true, if_false]
                    rw [← ih _ rfl, List.head?_map, ← List.map_tail]
                    rfl
                  · simp only [if_neg hfault, if_pos hmore, Option.bind_some, Bool.false_eq_true,
                      if_false]
                    rw [← ih _ rfl]
                    rfl
          · simp only [if_pos hfs, Option.bind_some, Bool.false_eq_true, if_false]
            rw [← ih _ rfl]
            rfl

theorem serve_sbdCryptRequest (cfg : Config n κ) (fuel : Nat) (dev : Device)
    (queue : List Request) :
    sbdCryptRequest cfg fuel dev queue =
      (serve cfg fuel (.start dev queue)).map Serving.run := by
  rw [← serve_requestLoop cfg fuel _ rfl]
  simp only [Serving.start, Serving.fetch, Serving.run, ← List.head?_map, List.map_tail,
    List.zipIdx_map_fst]
  rfl

/-! ## What is left -/

/-- The requests that are not finished yet. -/
def Serving.left (s : Serving) : List (Request × Nat) := s.req.toList ++ s.queue

theorem Serving.left_fetch (s : Serving) : s.fetch.left = s.queue := by
  obtain ⟨dev, req, queue, log, fault, events⟩ := s
  cases queue <;> rfl

/-- Every number is that of a request that is left, or has been completed, and not
both. -/
structure Books (total : Nat) (s : Serving) : Prop where
  balance : ∀ i, s.events.count (.complete i) + (s.left.map Prod.snd).count i =
    (List.range total).count i
  clean : Clean s.events
  order : s.req = none → s.queue = []

section Books

variable {cfg : Config n κ} {s s' : Serving} {total : Nat}

theorem books_fetch (hbalance : ∀ i, s.events.count (.complete i) +
      (s.queue.map Prod.snd).count i = (List.range total).count i) (hclean : Clean s.events) :
    Books total s.fetch := by
  refine ⟨fun i => ?_, hclean, fun hnone => ?_⟩
  · rw [s.left_fetch]
    exact hbalance i
  · exact congrArg List.tail (List.head?_eq_none_iff.mp hnone)

theorem books_start (dev : Device) (queue : List Request) :
    Books queue.length (.start dev queue) := by
  refine books_fetch (fun i => ?_) trivial
  rw [List.zipIdx_map_snd, List.count_nil, Nat.zero_add, List.range_eq_range']

/-- A request in hand has not been completed. -/
theorem Books.open (h : Books total s) {req : Request × Nat} (hreq : s.req = some req) :
    .complete req.2 ∉ s.events := by
  have hbalance := h.balance req.2
  have hleft : 0 < (s.left.map Prod.snd).count req.2 := by
    rw [Serving.left, hreq]
    exact List.count_pos_iff.mpr List.mem_cons_self
  have honce := List.nodup_iff_count_le_one.mp (List.nodup_range (n := total)) req.2
  exact List.count_eq_zero.mp (by omega)

/-- A round with a request of the file system, and without a fault: on to its next segment,
or to the next request. -/
theorem round_fs {req : Request} {i : Nat} (hfs : req.cmdType = .fs)
    (h : round cfg s (req, i) = some s') (hsafe : s'.fault = false) :
    ∃ dev log, s' = ⟨dev, some (req.endCur, i), s.queue, log, s.fault, .use i :: s.events⟩ ∨
      s' = Serving.fetch ⟨dev, s.req, s.queue, log, s.fault,
        .complete i :: .use i :: s.events⟩ := by
  rw [round, if_neg (not_not.mpr hfs)] at h
  split at h
  · exact absurd h (Option.some_ne_none _).symm
  · split at h
    · obtain rfl := Option.some.inj h
      exact absurd hsafe.symm Bool.false_ne_true
    · split at h
      · exact ⟨_, _, .inl (Option.some.inj h).symm⟩
      · exact ⟨_, _, .inr (Option.some.inj h).symm⟩

/-- **Each round keeps the books**, and leaves no more than requests of the file system. -/
theorem Books.round (h : Books total s) (hfs : ∀ p ∈ s.left, p.1.cmdType = .fs)
    {req : Request × Nat} (hreq : s.req = some req) (hround : round cfg s req = some s')
    (hsafe : s'.fault = false) : Books total s' ∧ ∀ p ∈ s'.left, p.1.cmdType = .fs := by
  have hopen := h.open hreq
  have hleft : s.left = req :: s.queue := by rw [Serving.left, hreq]; rfl
  have hbalance := h.balance
  rw [hleft] at hfs hbalance
  obtain ⟨hfirst, hrest⟩ := List.forall_mem_cons.mp hfs
  obtain ⟨req, i⟩ := req
  obtain ⟨dev, log, rfl | rfl⟩ := round_fs hfirst hround hsafe
  · -- the same number is in hand
    refine ⟨⟨fun j => ?_, ⟨hopen, h.clean⟩, fun hnone => ?_⟩, ?_⟩
    · rw [← hbalance j, List.count_cons_of_ne (by simp)]
      rfl
    · cases hnone
    · exact List.forall_mem_cons.mpr ⟨hfirst, hrest⟩
  · refine ⟨books_fetch (fun j => ?_) ⟨hopen, h.clean⟩, ?_⟩
    · have hbal := hbalance j
      simp only [List.map_cons, List.count_cons, beq_iff_eq, Event.complete.injEq,
        reduceCtorEq, if_false] at hbal ⊢
      omega
    · rw [Serving.left_fetch]
      exact hrest

/-- **So does the whole loop**, at whose end nothing is left. -/
theorem Books.serve (h : Books total s) (hfs : ∀ p ∈ s.left, p.1.cmdType = .fs) {fuel : Nat}
    (hserve : serve cfg fuel s = some s') (hsafe : s'.fault = false) :
    Books total s' ∧ s'.left = [] := by
  induction fuel generalizing s with
  | zero => exact absurd hserve (Option.some_ne_none _).symm
  | succ fuel ih =>
      rw [BlockDevice.serve] at hserve
      split at hserve
      · rename_i hnone
        obtain rfl := Option.some.inj hserve
        exact ⟨h, by rw [Serving.left, hnone, h.order hnone]; rfl⟩
      · rename_i req hreq
        obtain ⟨t, hround, hrest⟩ := Option.bind_eq_some_iff.mp hserve
        by_cases hfault : t.fault = true
        · rw [if_pos hfault] at hrest
          obtain rfl := Option.some.inj hrest
          exact absurd (hsafe.symm.trans hfault) Bool.false_ne_true
        · rw [if_neg hfault] at hrest
          obtain ⟨hbooks, hfs'⟩ := h.round hfs hreq hround (Bool.eq_false_iff.mpr hfault)
          exact ih hbooks hfs' hrest

end Books

/-! ## Which queues are served -/

section Queues

variable {cfg : Config 16 κ}

theorem transfer_halts (hword : 32 ≤ cfg.word) {dev : Device} {sector nsect : Nat}
    {buffer : Nat → UInt8} {write : Bool} {t : Transfer}
    (h : sbdCryptTransfer cfg dev sector nsect buffer write = some t) :
    Halts cfg dev.size sector nsect ∧ t.dev.size = dev.size := by
  rw [transfer_moved] at h
  obtain ⟨blocks, hmoved, rfl⟩ := Option.map_eq_some_iff.mp h
  constructor
  · exact (moved_isSome_iff hword (by decide)).mp (by rw [hmoved]; rfl)
  · exact moveBlocks_size cfg dev buffer write blocks

/-- A request's calls: the current one, and those for what `__blk_end_request_cur`
leaves, if it leaves anything. -/
theorem mem_calls {req : Request} {c : Call} (h : c ∈ req.calls) :
    (c.pos = req.pos ∧ c.sectors = req.curSectors) ∨
      (req.endCur.segs ≠ [] ∧ c ∈ req.endCur.calls) := by
  obtain ⟨cmdType, pos, write, segs⟩ := req
  match segs, h with
  | [], h =>
      obtain rfl := List.mem_singleton.mp h
      exact .inl ⟨rfl, rfl⟩
  | [seg], h =>
      obtain rfl := List.mem_singleton.mp h
      exact .inl ⟨rfl, rfl⟩
  | seg :: seg' :: segs, h =>
      rcases List.mem_cons.mp h with rfl | hrest
      · exact .inl ⟨rfl, rfl⟩
      · exact .inr ⟨List.cons_ne_nil _ _, hrest⟩

theorem segment_mem_calls {req : Request} {acc : Access} (h : acc ∈ req.accesses) :
    .segment acc ∈ req.calls := by
  rw [← Request.filterMap_calls] at h
  obtain ⟨c, hc, hacc⟩ := List.mem_filterMap.mp h
  cases c with
  | segment acc' => rwa [← Option.some.inj hacc]
  | bare pos => cases hacc

/-- A request of the file system, of which every transfer ends and no dump faults. -/
def Request.Servable (cfg : Config 16 κ) (size : Nat) (req : Request) : Prop :=
  req.cmdType = .fs ∧ ∀ c ∈ req.calls,
    Halts cfg size c.pos c.sectors ∧ ¬ Faults cfg size c.pos c.sectors

/-- The current transfer, and what is left. -/
theorem Request.Servable.cons {size : Nat} {req : Request} (hfs : req.cmdType = .fs)
    (hcur : Halts cfg size req.pos req.curSectors ∧ ¬ Faults cfg size req.pos req.curSectors)
    (hrest : req.endCur.segs ≠ [] → req.endCur.Servable cfg size) : req.Servable cfg size := by
  refine ⟨hfs, fun c hc => ?_⟩
  rcases mem_calls hc with ⟨hpos, hsectors⟩ | ⟨hmore, hc⟩
  · rw [hpos, hsectors]
    exact hcur
  · exact (hrest hmore).2 c hc

/-- **A request of another kind stays in hand** for ever. -/
theorem requestLoop_other {req : Request} (h : req.cmdType ≠ .fs) (fuel : Nat) (r : Run) :
    requestLoop cfg fuel (some req) r = none := by
  induction fuel generalizing r with
  | zero => rfl
  | succ fuel ih =>
      rw [requestLoop, if_pos h]
      exact ih _

/-- **A loop that ends without a fault** had only servable requests. The induction is over
its rounds. -/
theorem servable_of_ends (hword : 32 ≤ cfg.word) {fuel : Nat} {dev : Device} {reqs : List Request}
    {log : List Completion} {run : Run}
    (h : requestLoop cfg fuel reqs.head? ⟨dev, reqs.tail, log, false⟩ = some run)
    (hsafe : run.fault = false) : ∀ req ∈ reqs, req.Servable cfg dev.size := by
  induction fuel generalizing dev reqs log with
  | zero => exact absurd h (Option.some_ne_none _).symm
  | succ fuel ih =>
      cases reqs with
      | nil => exact fun _ hreq => absurd hreq List.not_mem_nil
      | cons req reqs =>
          rw [List.head?_cons, List.tail_cons] at h
          by_cases hfs : req.cmdType = .fs
          · rw [requestLoop, if_neg (not_not.mpr hfs)] at h
            split at h
            · exact absurd h (Option.some_ne_none _).symm
            · rename_i t htransfer
              obtain ⟨hhalts, hsize⟩ := transfer_halts hword htransfer
              have hflag := transfer_fault htransfer
              rw [← hsize] at hhalts hflag ⊢
              split at h
              · obtain rfl := Option.some.inj h
                exact absurd hsafe.symm Bool.false_ne_true
              · rename_i hfault
                have hdumped := of_decide_eq_false (hflag.symm.trans (Bool.eq_false_iff.mpr hfault))
                dsimp only at h
                split at h
                · obtain ⟨hreq, hreqs⟩ := List.forall_mem_cons.mp
                    (ih (show requestLoop cfg fuel (req.endCur :: reqs).head? _ = _ from h))
                  exact List.forall_mem_cons.mpr ⟨.cons hfs ⟨hhalts, hdumped⟩ fun _ => hreq, hreqs⟩
                · rename_i hlast
                  exact List.forall_mem_cons.mpr
                    ⟨.cons hfs ⟨hhalts, hdumped⟩ fun hmore => absurd hmore hlast, ih h⟩
          · rw [requestLoop_other hfs] at h
            exact absurd h (Option.some_ne_none _).symm

/-- **Without a first page** only queues are served of which everything is rejected. -/
theorem Served.rejected (hword : 32 ≤ cfg.word) (hpage : ∀ a < 4096, cfg.readable a = false)
    {dev : Device} {queue : List Request} (h : Served cfg dev queue) :
    ∀ c ∈ calls queue, Rejects cfg dev.size c.pos c.sectors := by
  obtain ⟨fuel, s, hrun, hsafe, -⟩ := h
  intro c hc
  obtain ⟨req, hreq, hc⟩ := List.mem_flatMap.mp hc
  obtain ⟨-, hdumped⟩ := (servable_of_ends hword hrun hsafe req hreq).2 c hc
  exact by_contra fun hacc => hdumped (faults_of_unreadable hpage hacc)

end Queues

/-- **Which queues are served**: exactly those with only requests of the file system, and
only transfers that end and whose dumps do not fault. If a logical block is a number of
whole cipher blocks, all transfers end (`halts_of_dvd`). -/
theorem served_iff (cfg : Config 16 κ) (hword : cfg.word = 32 ∨ cfg.word = 64) (dev : Device)
    (queue : List Request) :
    Served cfg dev queue ↔ ∀ req ∈ queue, req.Servable cfg dev.size := by
  have h32 : 32 ≤ cfg.word := by omega
  constructor
  · rintro ⟨fuel, s, hrun, hsafe, -⟩
    exact servable_of_ends h32 hrun hsafe
  · intro hgood
    have hhalts : ∀ acc ∈ accesses queue, Halts cfg dev.size acc.pos acc.sectors := by
      intro acc hacc
      obtain ⟨req, hreq, hacc⟩ := List.mem_flatMap.mp hacc
      exact ((hgood req hreq).2 _ (segment_mem_calls hacc)).1
    have hdumps : ∀ c ∈ calls queue, ¬ Faults cfg dev.size c.pos c.sectors := by
      intro c hc
      obtain ⟨req, hreq, hc⟩ := List.mem_flatMap.mp hc
      exact ((hgood req hreq).2 c hc).2
    obtain ⟨run, hrun, hsafe, hempty, -⟩ := (@steps_sameSize _ cfg dev.size h32).ends
      (fun req hreq => (hgood req hreq).1) hhalts hdumps (p := ()) rfl
    have hrun := hrun (work queue + 1) (Nat.lt_succ_self _)
    obtain ⟨s, hserve, rfl⟩ := Option.map_eq_some_iff.mp
      ((serve_sbdCryptRequest cfg (work queue + 1) dev queue).symm.trans hrun)
    have hfs : ∀ p ∈ (Serving.start dev queue).left, p.1.cmdType = .fs := by
      rw [Serving.start, Serving.left_fetch]
      exact fun p hp => (hgood p.1 (List.fst_mem_of_mem_zipIdx hp)).1
    obtain ⟨hbooks, hleft⟩ := (books_start dev queue).serve hfs hserve hsafe
    refine ⟨_, s, hrun, hsafe, hempty, hserve, fun i hi => ?_, hbooks.clean⟩
    have hbalance := hbooks.balance i
    rw [hleft, List.map_nil, List.count_nil, Nat.add_zero] at hbalance
    rw [hbalance]
    exact List.count_eq_one_of_mem List.nodup_range (List.mem_range.mpr hi)

theorem served_defaults : Served defaults (sbdCryptInit defaults fun _ => 1) writeThenRead := by
  refine (served_iff defaults (.inl rfl) _ writeThenRead).mpr fun req hreq => ?_
  refine ⟨?_, fun c _ => ⟨halts_of_dvd (by decide) (by decide) (by decide),
    not_faults_of_readable defaults_assumptions.page⟩⟩
  simp only [writeThenRead, List.mem_cons, List.not_mem_nil, or_false] at hreq
  rcases hreq with rfl | rfl <;> rfl

/-- A single request, and not one of the file system's. -/
def scsiCommand : List Request := [⟨.other, 0, false, []⟩]

/-- **The loop does not get past it**: it never ends, and after two rounds the request
has been completed twice, and used in between. And without a first page the loop gets no
further than the first segment that is written. -/
theorem completed_again :
    (∀ fuel, sbdCryptRequest defaults fuel (sbdCryptInit defaults fun _ => 1) scsiCommand = none) ∧
    (∃ s t, round defaults (.start (sbdCryptInit defaults fun _ => 1) scsiCommand)
        (⟨.other, 0, false, []⟩, 0) = some s ∧
      round defaults s (⟨.other, 0, false, []⟩, 0) = some t ∧
      t.events = [.complete 0, .use 0, .complete 0, .use 0] ∧ ¬ Clean t.events) ∧
    ¬ Served defaults (sbdCryptInit defaults fun _ => 1) scsiCommand ∧
    ¬ Served (defaultsOn fun _ => false) (sbdCryptInit defaults fun _ => 1) writeThenRead := by
  have hnever : ∀ fuel, sbdCryptRequest defaults fuel (sbdCryptInit defaults fun _ => 1)
      scsiCommand = none := fun fuel => requestLoop_other (by decide) fuel _
  refine ⟨hnever, ⟨_, _, rfl, rfl, rfl, ?_⟩, ?_, fun h => ?_⟩
  · rintro ⟨hused, -⟩
    exact hused List.mem_cons_self
  · rintro ⟨fuel, s, hrun, -⟩
    rw [hnever fuel] at hrun
    exact absurd hrun.symm (Option.some_ne_none _)
  · have hrej := h.rejected (by decide) (fun _ _ => rfl) _ List.mem_cons_self
    exact absurd hrej (by decide)

end OsProjects.BlockDevice
