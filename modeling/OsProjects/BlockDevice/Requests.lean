import OsProjects.BlockDevice.Blocks

/-!
# The request loop

`sbd_crypt_request` goes through a queue segment by segment. What it does with a
whole queue follows from what a single transfer does: `Steps` is a relation
between the device and some description of it that every transfer keeps, and
`Steps.stops` is that the loop then stops, at the end of the queue or at the first
transfer whose dumps fault. Until then it keeps the relation, and completes every
segment once and in order, each as the description says at that point.
-/

namespace OsProjects.BlockDevice

variable {n : Nat} {κ σ : Type}

/-! ## The segments of a queue -/

/-- A request's segments, with their positions. -/
def accessesFrom (write : Bool) : Nat → List Segment → List Access
  | _, [] => []
  | pos, seg :: segs =>
      ⟨pos, seg.sectors, write, seg.buffer⟩ :: accessesFrom write (pos + seg.sectors) segs

def Request.accesses (req : Request) : List Access := accessesFrom req.write req.pos req.segs

def accesses (queue : List Request) : List Access := queue.flatMap Request.accesses

def Request.sectors (req : Request) : Nat := (req.segs.map Segment.sectors).sum

/-- A bound on the rounds of the request loop. -/
def work (queue : List Request) : Nat := (queue.map fun req => req.segs.length + 1).sum

/-! ## Calls -/

/-- A call of `sbd_crypt_transfer`: for a segment, or for a request that has none. -/
inductive Call where
  | segment (acc : Access)
  | bare (pos : Nat)

def Call.pos : Call → Nat
  | .segment acc => acc.pos
  | .bare pos => pos

def Call.sectors : Call → Nat
  | .segment acc => acc.sectors
  | .bare _ => 0

/-- What there is to complete. -/
def Call.access : Call → Option Access
  | .segment acc => some acc
  | .bare _ => none

def Request.calls (req : Request) : List Call :=
  match req.segs with
  | [] => [.bare req.pos]
  | _ :: _ => req.accesses.map .segment

def calls (queue : List Request) : List Call := queue.flatMap Request.calls

/-- The segments that get completed: those before the first call that faults. -/
def answered (cfg : Config n κ) (size : Nat) (cs : List Call) : List Access :=
  (cs.takeWhile fun c => ¬ Faults cfg size c.pos c.sectors).filterMap Call.access

section Calls

variable {cfg : Config n κ} {size : Nat} {c : Call} {cs : List Call}

theorem answered_fault (h : Faults cfg size c.pos c.sectors) :
    answered cfg size (c :: cs) = [] := by
  rw [answered, List.takeWhile_cons_of_neg (by simpa using h)]
  rfl

theorem answered_cons (h : ¬ Faults cfg size c.pos c.sectors) :
    answered cfg size (c :: cs) = c.access.toList ++ answered cfg size cs := by
  rw [answered, List.takeWhile_cons_of_pos (by simpa using h)]
  cases c <;> rfl

theorem answered_eq (h : ∀ c ∈ cs, ¬ Faults cfg size c.pos c.sectors) :
    answered cfg size cs = cs.filterMap Call.access := by
  rw [answered, List.takeWhile_eq_self_iff.mpr fun c hc => decide_eq_true (h c hc)]

/-- A flag that is set by a call that faults stays down without one. -/
theorem flag_false_of_safe {flag : Bool}
    (hflag : flag = true ↔ ∃ c ∈ cs, Faults cfg size c.pos c.sectors)
    (hsafe : ∀ c ∈ cs, ¬ Faults cfg size c.pos c.sectors) : flag = false := by
  refine Bool.eq_false_iff.mpr fun h => ?_
  obtain ⟨c, hc, hfaults⟩ := hflag.mp h
  exact hsafe c hc hfaults

theorem Request.filterMap_calls (req : Request) :
    req.calls.filterMap Call.access = req.accesses := by
  obtain ⟨cmdType, pos, write, segs⟩ := req
  cases segs with
  | nil => rfl
  | cons seg segs =>
      show (List.map Call.segment _).filterMap Call.access = _
      rw [List.filterMap_map]
      exact List.filterMap_some

theorem filterMap_calls (queue : List Request) :
    (calls queue).filterMap Call.access = accesses queue := by
  rw [calls, List.filterMap_flatMap]
  simp only [Request.filterMap_calls]
  rfl

end Calls

/-! ## Transfers as steps of a description -/

/-- The description `σ` of a device of the given size, how an access changes it, and
what it says of the segment that comes back. -/
structure Description (σ : Type) where
  size : Nat
  describes : σ → Device → Prop
  sized : ∀ p dev, describes p dev → dev.size = size
  apply : σ → Access → σ
  returns : σ → Access → Access → Prop

/-- The completions are those of the accesses, one for one and in order, each
without an error and as the description says at that point. -/
def Description.Completes (D : Description σ) : σ → List Access → List Completion → Prop
  | _, [], [] => True
  | p, acc :: accs, .cur back error :: done =>
      D.returns p acc back ∧ error = 0 ∧ D.Completes (D.apply p acc) accs done
  | _, _, _ => False

/-- Every transfer of a `good` segment ends, and is as described. -/
def Steps (cfg : Config n κ) (D : Description σ) (good : Access → Prop) : Prop :=
  ∀ p dev acc, good acc → D.describes p dev →
    ∃ t, sbdCryptTransfer cfg dev acc.pos acc.sectors acc.buffer acc.write = some t ∧
      D.describes (D.apply p acc) t.dev ∧
      D.returns p acc ⟨acc.pos, acc.sectors, acc.write, t.buffer⟩

/-- The loop, with the requests `reqs` left and `cs` to be called, stops within `rounds`
rounds: at the end, or with a fault. -/
def Stops (cfg : Config n κ) (D : Description σ) (reqs : List Request) (rounds : Nat)
    (cs : List Call) : Prop :=
  ∀ (dev : Device) (log : List Completion) (p : σ), D.describes p dev →
    ∃ run, (∀ fuel, rounds < fuel →
        requestLoop cfg fuel reqs.head? ⟨dev, reqs.tail, log, false⟩ = some run) ∧
      (∃ done, run.log = log ++ done ∧ D.Completes p (answered cfg D.size cs) done) ∧
      (run.fault = true ↔ ∃ c ∈ cs, Faults cfg D.size c.pos c.sectors) ∧
      (run.fault = false → run.queue = [] ∧
        D.describes ((cs.filterMap Call.access).foldl D.apply p) run.dev)

section Loop

variable {cfg : Config n κ} {D : Description σ} {good : Access → Prop}

theorem stops_nil : Stops cfg D [] 0 [] := by
  intro dev log p h
  refine ⟨⟨dev, [], log, false⟩, fun fuel hf => ?_, ⟨[], (List.append_nil log).symm, trivial⟩, ?_,
    fun _ => ⟨rfl, h⟩⟩
  · obtain ⟨f, rfl⟩ := Nat.exists_eq_succ_of_ne_zero (Nat.ne_zero_of_lt hf)
    rfl
  · simp

theorem Stops.mono {reqs : List Request} {rounds rounds' : Nat} {cs : List Call}
    (h : Stops cfg D reqs rounds cs) (hle : rounds ≤ rounds') : Stops cfg D reqs rounds' cs := by
  intro dev log p hdesc
  obtain ⟨run, hrun, hrest⟩ := h dev log p hdesc
  exact ⟨run, fun fuel hf => hrun fuel (Nat.lt_of_le_of_lt hle hf), hrest⟩

/-! ### Rounds -/

section Round

variable {req : Request} {dev : Device} {queue : List Request} {log : List Completion}
  {t : Transfer}

/-- One round of the loop, from a request of the file system. -/
theorem requestLoop_round (hfs : req.cmdType = .fs)
    (htr : sbdCryptTransfer cfg dev req.pos req.curSectors req.curBuffer req.write = some t)
    (hsafe : t.fault = false) (fuel : Nat) :
    requestLoop cfg (fuel + 1) (some req) ⟨dev, queue, log, false⟩ =
      if req.endCur.segs ≠ [] then
        requestLoop cfg fuel (some req.endCur) ⟨t.dev, queue, log ++ req.completed t.buffer, false⟩
      else
        requestLoop cfg fuel queue.head?
          ⟨t.dev, queue.tail, log ++ req.completed t.buffer, false⟩ := by
  rw [requestLoop, if_neg (not_not.mpr hfs), htr]
  simp only [hsafe, Bool.false_eq_true, if_false]

/-- The round of a fault. -/
theorem requestLoop_fault (hfs : req.cmdType = .fs)
    (htr : sbdCryptTransfer cfg dev req.pos req.curSectors req.curBuffer req.write = some t)
    (hfault : t.fault = true) (fuel : Nat) :
    requestLoop cfg (fuel + 1) (some req) ⟨dev, queue, log, false⟩ =
      some ⟨t.dev, queue, log, true⟩ := by
  rw [requestLoop, if_neg (not_not.mpr hfs), htr]
  simp only [hfault, if_true]

end Round

/-- **The first call faults**, and the others are not made. -/
theorem stops_fault {req : Request} {reqs : List Request} {c : Call} {cs : List Call}
    {rounds : Nat} (hfs : req.cmdType = .fs) (hpos : c.pos = req.pos)
    (hsectors : c.sectors = req.curSectors) (hfault : Faults cfg D.size c.pos c.sectors)
    (hends : ∀ p dev, D.describes p dev → ∃ t,
      sbdCryptTransfer cfg dev req.pos req.curSectors req.curBuffer req.write = some t) :
    Stops cfg D (req :: reqs) rounds (c :: cs) := by
  intro dev log p hdesc
  obtain ⟨t, htr⟩ := hends p dev hdesc
  have hflag : t.fault = true := by
    rw [transfer_fault htr, D.sized p dev hdesc, ← hpos, ← hsectors]
    exact decide_eq_true hfault
  refine ⟨⟨t.dev, reqs, log, true⟩, fun fuel hf => ?_, ⟨[], (List.append_nil log).symm, ?_⟩, ?_,
    fun h => absurd h.symm Bool.false_ne_true⟩
  · obtain ⟨f, rfl⟩ := Nat.exists_eq_succ_of_ne_zero (Nat.ne_zero_of_lt hf)
    exact requestLoop_fault hfs htr hflag f
  · rw [answered_fault hfault]
    trivial
  · exact iff_of_true rfl ⟨c, List.mem_cons_self, hfault⟩

/-- A call that does not fault is not the one that does. -/
theorem exists_faults_cons {c : Call} {cs : List Call} {size : Nat}
    (h : ¬ Faults cfg size c.pos c.sectors) :
    (∃ d ∈ c :: cs, Faults cfg size d.pos d.sectors) ↔
      ∃ d ∈ cs, Faults cfg size d.pos d.sectors := by
  rw [List.exists_mem_cons_iff]
  exact or_iff_right h

/-- A request without segments: one round, and on to the next. -/
theorem Stops.empty {reqs : List Request} {rounds pos : Nat} {cs : List Call} {write : Bool}
    (hnext : Stops cfg D reqs rounds cs) :
    Stops cfg D (⟨.fs, pos, write, []⟩ :: reqs) (rounds + 1) (.bare pos :: cs) := by
  by_cases hfault : Faults cfg D.size pos 0
  · exact stops_fault rfl rfl rfl hfault fun p dev _ => ⟨_, transfer_empty _ _⟩
  intro dev log p hdesc
  obtain ⟨run, hrun, hlog, hflag, hend⟩ := hnext dev log p hdesc
  refine ⟨run, fun fuel hf => ?_, ?_, ?_, hend⟩
  · obtain ⟨f, rfl⟩ := Nat.exists_eq_succ_of_ne_zero (Nat.ne_zero_of_lt hf)
    have hsafe : decide (Faults cfg dev.size pos 0) = false := by
      rw [D.sized p dev hdesc]
      exact decide_eq_false hfault
    have hround := @requestLoop_round _ _ cfg ⟨.fs, pos, write, []⟩ dev reqs log _ rfl
      (transfer_empty _ _) hsafe f
    refine hround.trans ?_
    show requestLoop cfg f reqs.head? ⟨dev, reqs.tail, log ++ [], false⟩ = some run
    rw [List.append_nil]
    exact hrun f (Nat.lt_of_succ_lt_succ hf)
  · rw [answered_cons (c := .bare pos) hfault]
    exact hlog
  · rw [exists_faults_cons (c := .bare pos) hfault]
    exact hflag

/-- **One segment**: a transfer, and on with what is left. -/
theorem Stops.segment (hsteps : Steps cfg D good) {left reqs : List Request} {rounds pos : Nat}
    {cs : List Call} {write : Bool} {seg : Segment} {segs : List Segment}
    (hnext : Stops cfg D left rounds cs)
    (hleft : left = if segs = [] then reqs else ⟨.fs, pos + seg.sectors, write, segs⟩ :: reqs)
    (hgood : good ⟨pos, seg.sectors, write, seg.buffer⟩) :
    Stops cfg D (⟨.fs, pos, write, seg :: segs⟩ :: reqs) (rounds + 1)
      (.segment ⟨pos, seg.sectors, write, seg.buffer⟩ :: cs) := by
  let acc : Access := ⟨pos, seg.sectors, write, seg.buffer⟩
  by_cases hfault : Faults cfg D.size pos seg.sectors
  · refine stops_fault rfl rfl rfl hfault fun p dev hdesc => ?_
    obtain ⟨t, htr, -⟩ := hsteps p dev acc hgood hdesc
    exact ⟨t, htr⟩
  intro dev log p hdesc
  obtain ⟨t, htr, hdesc', hback⟩ := hsteps p dev acc hgood hdesc
  have hsafe : t.fault = false := by
    rw [transfer_fault htr, D.sized p dev hdesc]
    exact decide_eq_false hfault
  let back : Completion := .cur ⟨pos, seg.sectors, write, t.buffer⟩ 0
  obtain ⟨run, hrun, ⟨done, hlog, hdone⟩, hflag, hend⟩ :=
    hnext t.dev (log ++ [back]) (D.apply p acc) hdesc'
  refine ⟨run, fun fuel hf => ?_, ⟨back :: done, ?_, ?_⟩, ?_, hend⟩
  · obtain ⟨f, rfl⟩ := Nat.exists_eq_succ_of_ne_zero (Nat.ne_zero_of_lt hf)
    have hgo := hrun f (Nat.lt_of_succ_lt_succ hf)
    have hround := @requestLoop_round _ _ cfg ⟨.fs, pos, write, seg :: segs⟩ _ reqs log _ rfl
      htr hsafe f
    refine hround.trans ?_
    by_cases hlast : segs = []
    · rw [hleft, if_pos hlast] at hgo
      subst hlast
      exact hgo
    · rw [hleft, if_neg hlast] at hgo
      show (if segs ≠ [] then _ else _) = _
      rw [if_pos hlast]
      exact hgo
  · rw [hlog, List.append_assoc]
    rfl
  · rw [answered_cons (c := .segment acc) hfault]
    exact ⟨hback, rfl, hdone⟩
  · rw [exists_faults_cons (c := .segment acc) hfault]
    exact hflag

/-- All segments of a request that has some. -/
theorem Stops.segments (hsteps : Steps cfg D good) {reqs : List Request} {rounds : Nat}
    {cs : List Call} (write : Bool) (hnext : Stops cfg D reqs rounds cs) (seg : Segment)
    (segs : List Segment) (pos : Nat)
    (hgood : ∀ acc ∈ accessesFrom write pos (seg :: segs), good acc) :
    Stops cfg D (⟨.fs, pos, write, seg :: segs⟩ :: reqs) ((seg :: segs).length + rounds)
      ((accessesFrom write pos (seg :: segs)).map .segment ++ cs) := by
  obtain ⟨hfirst, hrest⟩ := List.forall_mem_cons.mp hgood
  induction segs generalizing seg pos with
  | nil =>
      refine (Stops.segment hsteps hnext rfl hfirst).mono ?_
      rw [List.length_singleton, Nat.add_comm]
  | cons seg' segs ih =>
      obtain ⟨hfirst', hrest'⟩ := List.forall_mem_cons.mp hrest
      refine (Stops.segment hsteps (ih seg' _ hrest hfirst' hrest') rfl hfirst).mono ?_
      simp only [List.length_cons]
      omega

/-- **The loop stops on every queue** of requests of the file system, and does what its
transfers do. The induction is over the queue. -/
theorem Steps.stops (hsteps : Steps cfg D good) {queue : List Request}
    (hfs : ∀ req ∈ queue, req.cmdType = .fs) (hgood : ∀ acc ∈ accesses queue, good acc) :
    Stops cfg D queue (work queue) (calls queue) := by
  induction queue with
  | nil => exact stops_nil
  | cons req reqs ih =>
      obtain ⟨cmdType, pos, write, segs⟩ := req
      obtain rfl : cmdType = .fs := hfs _ List.mem_cons_self
      have hrest := ih (fun req hreq => hfs req (List.mem_cons_of_mem _ hreq))
        fun acc hacc => hgood acc (List.mem_append_right _ hacc)
      cases segs with
      | nil => exact hrest.empty.mono (Nat.add_comm 1 (work reqs)).ge
      | cons seg segs =>
          refine (hrest.segments hsteps write seg segs pos fun acc hacc =>
            hgood acc (List.mem_append_left _ hacc)).mono ?_
          exact Nat.add_le_add_right (Nat.le_succ _) (work reqs)

/-- **Without a fault it ends**, having completed every segment. -/
theorem Steps.ends (hsteps : Steps cfg D good) {queue : List Request}
    (hfs : ∀ req ∈ queue, req.cmdType = .fs) (hgood : ∀ acc ∈ accesses queue, good acc)
    (hsafe : ∀ c ∈ calls queue, ¬ Faults cfg D.size c.pos c.sectors) {dev : Device} {p : σ}
    (hdesc : D.describes p dev) :
    ∃ run, (∀ fuel, work queue < fuel → sbdCryptRequest cfg fuel dev queue = some run) ∧
      run.fault = false ∧ run.queue = [] ∧ D.Completes p (accesses queue) run.log ∧
      D.describes ((accesses queue).foldl D.apply p) run.dev := by
  obtain ⟨run, hrun, ⟨done, hlog, hdone⟩, hflag, hend⟩ := hsteps.stops hfs hgood dev [] p hdesc
  have hfault : run.fault = false := flag_false_of_safe hflag hsafe
  rw [List.nil_append] at hlog
  rw [answered_eq hsafe, filterMap_calls] at hdone
  rw [filterMap_calls] at hend
  obtain ⟨hqueue, hfinal⟩ := hend hfault
  refine ⟨run, hrun, hfault, hqueue, ?_, hfinal⟩
  rw [hlog]
  exact hdone

end Loop

end OsProjects.BlockDevice
