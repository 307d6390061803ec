import OsProjects.Slob.Guarantees

/-!
# The counters and the two system calls

Calls of `slob_alloc` and `slob_free` one after another: a call is its steps,
taken by a single thread (`Call.run`). `CallOf` is what it does to the ledger and
to the counters: `used_m` and `pcount` go up and down with the live blocks and
the pages held, `claimed_m` only goes up.

So between calls `used_m` and `pcount` are exact (`counters_exact`), and
`sys_slob_used` and `sys_slob_free` tell the truth (`Reports`) exactly in the
runs in which no call of `slob_free` hands its page back, as long as an `int`
can count the bytes of the pages held (`reports_iff`).
-/

namespace OsProjects.Slob

open Framework

variable {n : Nat} {s s' : Sys n} {a : Label n}

/-! ## What a step does -/

/-- The search comes back with nothing, so that `slob_new_pages` is called. -/
def Sys.NeedsPage (cfg : Config) (s : Sys n) (req : Request) : Prop :=
  (slobAllocSearch cfg s.heap req.size req.align req.node none).map Prod.fst = some none

instance (cfg : Config) (s : Sys n) (req : Request) : Decidable (s.NeedsPage cfg req) :=
  inferInstanceAs (Decidable (_ = _))

/-- The effect of a step on the ledger, on the program points, and on the
counters that are not recomputed from scratch. -/
inductive StepOf (cfg : Config) (s : Sys n) : Label n → Sys n → Prop where
  | write {b : Block} {off : Nat} {byte : UInt8} {h : Heap} : SameCounters s.heap h →
      StepOf cfg s (.write b off byte) ⟨h, s.ledger, s.pc⟩
  | noRoom {t : Fin n} {req : Request} {h : Heap} : s.pc t = .idle → s.NeedsPage cfg req →
      SameCounters s.heap h →
      StepOf cfg s (.search t req) (Sys.goto ⟨h, s.ledger, s.pc⟩ t (.needPage req))
  | carve {t : Fin n} {req : Request} {b : Nat} {h : Heap} : s.pc t = .idle →
      ¬ s.NeedsPage cfg req → SameCounters s.heap h →
      StepOf cfg s (.search t req) (Sys.goto ⟨h, ⟨s.ledger.held, ⟨b, req.size⟩ :: s.ledger.live⟩,
        s.pc⟩ t (.finishing req b false))
  | noPage {t : Fin n} {req : Request} : s.pc t = .needPage req →
      StepOf cfg s (.noPage t) (s.goto t .idle)
  | newPage {t : Fin n} {req : Request} {pn : Nat} {bytes : Mem} {desc : Page} {h : Heap} :
      s.pc t = .needPage req → SameCounters s.heap h →
      StepOf cfg s (.newPage t pn bytes desc) (Sys.goto ⟨h, s.ledger, s.pc⟩ t (.gotPage req pn))
  | insert {t : Fin n} {req : Request} {pn b : Nat} {h : Heap} : s.pc t = .gotPage req pn →
      SameCounters s.heap h →
      StepOf cfg s (.insert t) (Sys.goto ⟨h, ⟨pn :: s.ledger.held,
        ⟨b, req.size⟩ :: s.ledger.live⟩, s.pc⟩ t (.finishing req b true))
  | finish {t : Fin n} {req : Request} {b : Nat} {new : Bool} :
      s.pc t = .finishing req b new →
      StepOf cfg s (.finish t) (Sys.goto { s with
        heap := slobAllocFinish s.heap b req.size req.zero new } t .idle)
  | free {t : Fin n} {b : Block} {h : Heap} : s.pc t = .idle → b ∈ s.ledger.live →
      blocksOn (s.ledger.live.erase b) b.pageNo ≠ [] →
      SameCounters (debitUsed s.heap b.size) h →
      StepOf cfg s (.free t b) (Sys.goto ⟨h, ⟨s.ledger.held, s.ledger.live.erase b⟩, s.pc⟩ t .idle)
  | giveUp {t : Fin n} {b : Block} {h : Heap} : s.pc t = .idle → b ∈ s.ledger.live →
      blocksOn (s.ledger.live.erase b) b.pageNo = [] → b.pageNo ∈ s.ledger.held →
      SameCounters (debitUsed s.heap b.size) h →
      StepOf cfg s (.free t b) (Sys.goto ⟨h, ⟨s.ledger.held.erase b.pageNo,
        s.ledger.live.erase b⟩, s.pc⟩ t (.releasing b.pageNo))
  | release {t : Fin n} {pn : Nat} : s.pc t = .releasing pn →
      StepOf cfg s (.release t) (Sys.goto { s with heap := slobFreeRelease s.heap pn } t .idle)

/-- **Inversion.** -/
theorem next_cases {cfg : Config} (hok : SysOk s) (hn : next cfg s a = some s') :
    StepOf cfg s a s' := by
  cases a with
  | search t req =>
      rw [next] at hn
      split at hn
      case isFalse => cases hn
      case isTrue hg =>
        obtain ⟨hidle, hsize, halign⟩ := hg
        rcases slobAllocSearch_spec hok.heap cfg req.node hsize halign with
          ⟨h', hrun, hs⟩ | ⟨b, h', hrun, -, -, -, hs⟩
        · rw [hrun] at hn
          obtain rfl := Option.some.inj hn
          exact .noRoom hidle (by rw [Sys.NeedsPage, hrun]; rfl) hs.counters
        · rw [hrun] at hn
          obtain rfl := Option.some.inj hn
          exact .carve hidle (by rw [Sys.NeedsPage, hrun]; simp) hs
  | noPage t =>
      rw [next] at hn
      split at hn
      case h_2 => cases hn
      case h_1 req hpc =>
        obtain rfl := Option.some.inj hn
        exact .noPage hpc
  | newPage t pn bytes desc =>
      rw [next] at hn
      split at hn
      case h_2 => cases hn
      case h_1 req hpc =>
        split at hn
        case isFalse => cases hn
        case isTrue =>
          obtain rfl := Option.some.inj hn
          exact .newPage hpc ⟨rfl, rfl, rfl⟩
  | insert t =>
      rw [next] at hn
      split at hn
      case h_2 => cases hn
      case h_1 req pn hpc =>
        obtain ⟨⟨hsize, halign⟩, hpos, hheld, hslab⟩ :
            PcOk s.heap s.ledger (.gotPage req pn) := hpc ▸ hok.pcs t
        obtain ⟨h', hrun, -, -, hs⟩ :=
          slobAllocInsert_spec hok.heap hpos hheld hslab hsize halign
        rw [hrun] at hn
        obtain rfl := Option.some.inj hn
        exact .insert hpc hs
  | finish t =>
      rw [next] at hn
      split at hn
      case h_2 => cases hn
      case h_1 req b new hpc =>
        obtain rfl := Option.some.inj hn
        exact .finish hpc
  | free t b =>
      rw [next] at hn
      split at hn
      case isFalse => cases hn
      case isTrue hg =>
        obtain ⟨hidle, hb⟩ := hg
        rw [if_neg (Nat.not_le.mpr (hok.heap.block_pos hb.1)),
          if_neg (Nat.pos_iff_ne_zero.mp (hok.heap.block_size hb.1).1)] at hn
        have hheap0 : HeapOk (debitUsed s.heap b.size) s.ledger :=
          hok.heap.congr (fun x _ _ => rfl) (fun q _ => rfl) rfl
        have hheld := hok.heap.housed b hb.1
        rcases slobFreeSection_spec hheap0 hb.1 with
          ⟨h', hrun, hheap, -, -, hs⟩ | ⟨h', hrun, hheap, -, hs⟩
        · rw [hrun] at hn
          obtain rfl := Option.some.inj hn
          have hgone : b.pageNo ∉ s.ledger.held.erase b.pageNo := by
            rw [hok.heap.heldNodup.mem_erase_iff]
            simp
          exact .giveUp hidle hb.1 (blocksOn_eq_nil hheap hgone) hheld hs
        · rw [hrun] at hn
          obtain rfl := Option.some.inj hn
          exact .free hidle hb.1 (hheap.occupied _ hheld) hs
  | release t =>
      rw [next] at hn
      split at hn
      case h_2 => cases hn
      case h_1 pn hpc =>
        obtain rfl := Option.some.inj hn
        exact .release hpc
  | write b off byte =>
      rw [next] at hn
      split at hn
      case isFalse => cases hn
      case isTrue =>
        obtain rfl := Option.some.inj hn
        exact .write ⟨rfl, rfl, rfl⟩

/-! ## Calls, one after another -/

inductive Call where
  /-- `page` is what `slob_new_pages` answers if it is asked. -/
  | alloc (req : Request) (page : Option (Nat × Mem × Page))
  | free (b : Block)
  | write (b : Block) (off : Nat) (byte : UInt8)

/-- The steps of a call, without interruption. -/
def Call.run (cfg : Config) (s : Sys 1) : Call → Option (Sys 1)
  | .alloc req page =>
      match next cfg s (.search 0 req) with
      | none => none
      | some s =>
          match s.pc 0, page with
          | .needPage _, none => next cfg s (.noPage 0)
          | .needPage _, some (pn, bytes, desc) =>
              (machine cfg 1).replay s [.newPage 0 pn bytes desc, .insert 0, .finish 0]
          | _, _ => next cfg s (.finish 0)
  | .free b =>
      match next cfg s (.free 0 b) with
      | none => none
      | some s =>
          match s.pc 0 with
          | .releasing _ => next cfg s (.release 0)
          | _ => some s
  | .write b off byte => next cfg s (.write b off byte)

def calls (cfg : Config) : Machine (Sys 1) Call := ⟨Booted, Call.run cfg⟩

/-- The effect of a call on the ledger and on the counters. -/
inductive CallOf (cfg : Config) (s s' : Sys 1) : Call → Prop where
  | refused {req : Request} : s.NeedsPage cfg req → s'.ledger = s.ledger →
      Adds s.heap s'.heap 0 0 0 → CallOf cfg s s' (.alloc req none)
  | carved {req : Request} {page : Option (Nat × Mem × Page)} {b : Nat} :
      ¬ s.NeedsPage cfg req →
      s'.ledger = ⟨s.ledger.held, ⟨b, req.size⟩ :: s.ledger.live⟩ →
      Adds s.heap s'.heap req.size 0 0 → CallOf cfg s s' (.alloc req page)
  | grown {req : Request} {pn b : Nat} {bytes : Mem} {desc : Page} : s.NeedsPage cfg req →
      s'.ledger = ⟨pn :: s.ledger.held, ⟨b, req.size⟩ :: s.ledger.live⟩ →
      Adds s.heap s'.heap req.size 1 PAGE_SIZE →
      CallOf cfg s s' (.alloc req (some (pn, bytes, desc)))
  | freed {b : Block} : b ∈ s.ledger.live → blocksOn (s.ledger.live.erase b) b.pageNo ≠ [] →
      s'.ledger = ⟨s.ledger.held, s.ledger.live.erase b⟩ →
      Adds s.heap s'.heap (-b.size) 0 0 → CallOf cfg s s' (.free b)
  | returned {b : Block} : b ∈ s.ledger.live →
      blocksOn (s.ledger.live.erase b) b.pageNo = [] → b.pageNo ∈ s.ledger.held →
      s'.ledger = ⟨s.ledger.held.erase b.pageNo, s.ledger.live.erase b⟩ →
      Adds s.heap s'.heap (-b.size) (-1) 0 → CallOf cfg s s' (.free b)
  | write {b : Block} {off : Nat} {byte : UInt8} : s'.ledger = s.ledger →
      Adds s.heap s'.heap 0 0 0 → CallOf cfg s s' (.write b off byte)

@[simp] theorem goto_heap (s : Sys n) (t : Fin n) (p : Pc) : (s.goto t p).heap = s.heap := rfl

theorem goto_self (s : Sys n) (t : Fin n) (p : Pc) : (s.goto t p).pc t = p :=
  Function.update_self ..

theorem replay_next {cfg : Config} {as : List (Label n)}
    (h : (machine cfg n).replay s (a :: as) = some s') :
    ∃ s₁, next cfg s a = some s₁ ∧ (machine cfg n).replay s₁ as = some s' :=
  Machine.replay_cons h

/-- The steps of a `slob_alloc` that needs a page, and gets one. -/
theorem grow_cases {cfg : Config} {s s' : Sys 1} {req : Request} {pn : Nat} {bytes : Mem}
    {desc : Page} (hok : SysOk s) (hpc : s.pc 0 = .needPage req)
    (hn : (machine cfg 1).replay s [.newPage 0 pn bytes desc, .insert 0, .finish 0] = some s') :
    ∃ b, s'.ledger = ⟨pn :: s.ledger.held, ⟨b, req.size⟩ :: s.ledger.live⟩ ∧
      Adds s.heap s'.heap req.size 1 PAGE_SIZE ∧ SysOk s' ∧ s'.pc 0 = .idle := by
  obtain ⟨s₁, h₁, hn⟩ := replay_next hn
  have hok₁ := (SysOk.step hok h₁).1
  obtain ⟨s₂, h₂, hn⟩ := replay_next hn
  have hok₂ := (SysOk.step hok₁ h₂).1
  obtain ⟨s₃, h₃, hn⟩ := replay_next hn
  have hok₃ := (SysOk.step hok₂ h₃).1
  obtain rfl := Option.some.inj hn
  cases next_cases hok h₁ with
  | newPage hpc₀ hs₁ =>
  cases hpc.symm.trans hpc₀
  cases next_cases hok₁ h₂ with
  | @insert _ _ _ b _ hpc₁ hs₂ =>
  rw [goto_self] at hpc₁
  cases hpc₁
  cases next_cases hok₂ h₃ with
  | finish hpc₂ =>
  rw [goto_self] at hpc₂
  cases hpc₂
  refine ⟨b, rfl, ?_, hok₃, goto_self ..⟩
  simpa using (hs₁.trans hs₂).adds.trans (adds_finish _ _ _ _ true)

/-- **Inversion for whole calls**, which end as they began: with no call under
way. -/
theorem call_cases {cfg : Config} {s s' : Sys 1} {a : Call} (hok : SysOk s)
    (hidle : s.pc 0 = .idle) (hn : a.run cfg s = some s') :
    CallOf cfg s s' a ∧ SysOk s' ∧ s'.pc 0 = .idle := by
  cases a with
  | alloc req page =>
      rw [Call.run] at hn
      split at hn
      case h_1 => cases hn
      case h_2 s₁ h₁ =>
        have hok₁ := (SysOk.step hok h₁).1
        cases next_cases hok h₁ with
        | noRoom _ hneeds hs =>
            rw [goto_self] at hn
            cases page with
            | none =>
                cases next_cases hok₁ hn with
                | noPage hpc =>
                    exact ⟨.refused hneeds rfl hs.adds, (SysOk.step hok₁ hn).1, goto_self ..⟩
            | some page =>
                obtain ⟨pn, bytes, desc⟩ := page
                obtain ⟨b, hledger, hadds, hok', hidle'⟩ := grow_cases hok₁ (goto_self ..) hn
                refine ⟨.grown hneeds hledger ?_, hok', hidle'⟩
                simpa using hs.adds.trans hadds
        | carve _ hneeds hs =>
            rw [goto_self] at hn
            have hok₂ := (SysOk.step hok₁ hn).1
            cases next_cases hok₁ hn with
            | finish hpc =>
                rw [goto_self] at hpc
                cases hpc
                refine ⟨.carved hneeds rfl ?_, hok₂, goto_self ..⟩
                simpa using hs.adds.trans (adds_finish _ _ _ _ false)
  | free b =>
      rw [Call.run] at hn
      split at hn
      case h_1 => cases hn
      case h_2 s₁ h₁ =>
        have hok₁ := (SysOk.step hok h₁).1
        cases next_cases hok h₁ with
        | free _ hb hmore hs =>
            rw [goto_self] at hn
            obtain rfl := Option.some.inj hn
            refine ⟨.freed hb hmore rfl ?_, hok₁, goto_self ..⟩
            simpa using (adds_debitUsed _ _).trans hs.adds
        | giveUp _ hb hlast hheld hs =>
            rw [goto_self] at hn
            have hok₂ := (SysOk.step hok₁ hn).1
            cases next_cases hok₁ hn with
            | release hpc =>
                refine ⟨.returned hb hlast hheld rfl ?_, hok₂, goto_self ..⟩
                simpa using ((adds_debitUsed _ _).trans hs.adds).trans (adds_release _ _)
  | write b off byte =>
      have hstep : next cfg s (.write b off byte) = some s' := hn
      have hok' := (SysOk.step hok hstep).1
      cases next_cases hok hstep with
      | write hs => exact ⟨.write rfl hs.adds, hok', hidle⟩

/-! ## Counters and ledger -/

/-- The sum of the sizes of the blocks. -/
def bytes (bs : List Block) : Nat := (bs.map Block.size).sum

@[simp] theorem bytes_nil : bytes [] = 0 := rfl

@[simp] theorem bytes_cons (b : Block) (bs : List Block) : bytes (b :: bs) = b.size + bytes bs :=
  rfl

theorem bytes_perm {bs cs : List Block} (h : bs.Perm cs) : bytes bs = bytes cs :=
  (h.map Block.size).sum_eq

theorem bytes_erase {bs : List Block} {b : Block} (hb : b ∈ bs) :
    bytes bs = b.size + bytes (bs.erase b) :=
  bytes_perm (List.perm_cons_erase hb)

/-- The live blocks fit into the pages held. -/
theorem bytes_le {B : Nat} {held : List Nat} {live : List Block}
    (hhoused : ∀ b ∈ live, b.pageNo ∈ held)
    (hpage : ∀ pn, bytes (blocksOn live pn) ≤ B) : bytes live ≤ B * held.length := by
  induction held generalizing live with
  | nil =>
      obtain rfl : live = [] := List.eq_nil_iff_forall_not_mem.mpr fun b hb => by
        cases hhoused b hb
      simp
  | cons pn held ih =>
      -- the blocks of the first page, and the others
      have hsplit : bytes live =
          bytes (blocksOn live pn) + bytes (live.filter fun b => !(b.pageNo == pn)) := by
        rw [← bytes_perm (List.filter_append_perm (fun b => b.pageNo == pn) live)]
        simp only [bytes, blocksOn, List.map_append, List.sum_append]
      have hrest : bytes (live.filter fun b => !(b.pageNo == pn)) ≤ B * held.length := by
        apply ih
        · intro b hb
          obtain ⟨hb, hne⟩ := List.mem_filter.mp hb
          rcases List.mem_cons.mp (hhoused b hb) with heq | hin
          · simp [heq] at hne
          · exact hin
        · intro q
          refine le_trans ?_ (hpage q)
          have hsub : (blocksOn (live.filter fun b => !(b.pageNo == pn)) q).Sublist
              (blocksOn live q) := List.filter_sublist.filter _
          exact (hsub.map Block.size).sum_le_sum fun _ _ => Nat.zero_le _
      have hfirst := hpage pn
      rw [hsplit, List.length_cons, Nat.mul_add_one]
      omega

theorem bytes_le_units {pn : Nat} {bs : List Block} {fl : List Ext} (ht : Tiled pn bs fl) :
    bytes bs ≤ PAGE_SIZE := by
  have hle : bytes bs ≤ SLOB_UNIT * total (exts bs) := by
    have hsized := ht.sized
    clear ht
    induction bs with
    | nil => simp
    | cons b bs ih =>
        have hb := SLOB_UNITS_eq (hsized b List.mem_cons_self).2
        have hbs := ih fun x hx => hsized x (List.mem_cons_of_mem b hx)
        rw [bytes_cons, exts_cons, total_cons]
        simp only [Block.ext, SLOB_UNIT] at *
        omega
  have htotal := ht.total_add
  unfold PAGE_SIZE
  unfold SLOB_UNIT at hle
  omega

theorem HeapOk.bytes_le {h : Heap} {L : Ledger} (hok : HeapOk h L) :
    bytes L.live ≤ PAGE_SIZE * L.held.length := by
  refine Slob.bytes_le hok.housed fun pn => ?_
  by_cases hpn : pn ∈ L.held
  · obtain ⟨c, fl, hp⟩ := hok.pages pn hpn
    exact bytes_le_units hp.tiled
  · rw [blocksOn_eq_nil hok hpn]
    exact Nat.zero_le _

/-- `used_m` and `pcount` between calls. -/
structure Booked (s : Sys n) : Prop where
  usedM : s.heap.usedM = bytes s.ledger.live
  pcount : s.heap.pcount = s.ledger.held.length

theorem Booked.call {cfg : Config} {s s' : Sys 1} {a : Call} (hb : Booked s)
    (h : CallOf cfg s s' a) : Booked s' := by
  obtain ⟨hused, hpages⟩ := hb
  cases h with
  | refused _ hL hadd | write hL hadd =>
      refine ⟨?_, ?_⟩
      · rw [hadd.usedM, hused, hL, add_zero]
      · rw [hadd.pcount, hpages, hL, add_zero]
  | carved _ hL hadd =>
      refine ⟨?_, ?_⟩
      · rw [hadd.usedM, hused, hL, bytes_cons, Nat.cast_add, add_comm]
      · rw [hadd.pcount, hpages, hL, add_zero]
  | grown _ hL hadd =>
      refine ⟨?_, ?_⟩
      · rw [hadd.usedM, hused, hL, bytes_cons, Nat.cast_add, add_comm]
      · rw [hadd.pcount, hpages, hL, List.length_cons, Nat.cast_add, Nat.cast_one]
  | freed hlive _ hL hadd =>
      refine ⟨?_, ?_⟩
      · rw [hadd.usedM, hused, hL, bytes_erase hlive, Nat.cast_add, add_comm, neg_add_cancel_left]
      · rw [hadd.pcount, hpages, hL, add_zero]
  | returned hlive _ hheld hL hadd =>
      refine ⟨?_, ?_⟩
      · rw [hadd.usedM, hused, hL, bytes_erase hlive, Nat.cast_add, add_comm, neg_add_cancel_left]
      · rw [hadd.pcount, hpages, hL, ← List.length_erase_add_one hheld, Nat.cast_add,
          Nat.cast_one, add_neg_cancel_right]

/-! ## The system calls -/

/-- `sys_slob_used`. -/
def sysSlobUsed (h : Heap) : Int := h.claimedM.toInt

/-- `sys_slob_free`, with `free_mem` an `int` of its own. -/
def sysSlobFree (h : Heap) : Int := (h.claimedM - h.usedM).toInt

/-- The system calls report the pages held and what is free on them. -/
structure Reports (s : Sys n) : Prop where
  used : sysSlobUsed s.heap = PAGE_SIZE * s.ledger.held.length
  free : sysSlobFree s.heap = PAGE_SIZE * s.ledger.held.length - bytes s.ledger.live
  free_nonneg : 0 ≤ sysSlobFree s.heap
  free_le : sysSlobFree s.heap ≤ sysSlobUsed s.heap

theorem toInt_natCast {m : Nat} (h : m < 2147483648) : ((m : Nat) : BitVec 32).toInt = m := by
  rw [BitVec.natCast_eq_ofNat, BitVec.toInt_ofNat']
  exact Int.bmod_eq_of_le (by omega) (by omega)

/-- What the report comes down to: `claimed_m` counts the pages held. -/
theorem reports_iff_claimed (hok : HeapOk s.heap s.ledger) (hb : Booked s) :
    Reports s ↔ s.heap.claimedM = (PAGE_SIZE * s.ledger.held.length : Nat) ∧
      s.ledger.held.length < 524288 := by
  have hle := hok.bytes_le
  constructor
  · intro hr
    have hused : s.heap.claimedM.toInt = PAGE_SIZE * s.ledger.held.length := hr.used
    constructor
    · have hback : BitVec.ofInt 32 s.heap.claimedM.toInt = s.heap.claimedM := BitVec.ofInt_toInt
      rw [← hback, hused, ← Nat.cast_mul, BitVec.ofInt_natCast]
      rfl
    · have hlt : s.heap.claimedM.toInt < 2 ^ 31 := BitVec.toInt_lt
      rw [hused] at hlt
      unfold PAGE_SIZE at hlt
      omega
  · rintro ⟨hclaimed, hlt⟩
    have hsmall : PAGE_SIZE * s.ledger.held.length < 2147483648 := by
      unfold PAGE_SIZE
      omega
    have hused : sysSlobUsed s.heap = (PAGE_SIZE * s.ledger.held.length : Nat) := by
      rw [sysSlobUsed, hclaimed]
      exact toInt_natCast hsmall
    have hfree : sysSlobFree s.heap =
        (PAGE_SIZE * s.ledger.held.length - bytes s.ledger.live : Nat) := by
      rw [sysSlobFree, hclaimed, hb.usedM, ← Nat.cast_sub hle]
      exact toInt_natCast (by omega)
    refine ⟨hused.trans (Nat.cast_mul _ _), ?_, ?_, ?_⟩
    · rw [hfree, Nat.cast_sub hle, Nat.cast_mul]
    · rw [hfree]
      exact Int.natCast_nonneg _
    · rw [hfree, hused]
      exact Int.ofNat_le.mpr (Nat.sub_le _ _)

/-- No block freed is the last one on its page, and no page is taken when
`2 ^ 19 - 1` of them are held. -/
def KeepsReports (cfg : Config) (s : Sys 1) : Call → Prop
  | .alloc req page => page.isSome → s.NeedsPage cfg req → s.ledger.held.length + 1 < 524288
  | .free b => blocksOn (s.ledger.live.erase b) b.pageNo ≠ []
  | .write _ _ _ => True

instance (cfg : Config) (s : Sys 1) : (a : Call) → Decidable (KeepsReports cfg s a)
  | .alloc _ _ => inferInstanceAs (Decidable (_ → _ → _))
  | .free _ => inferInstanceAs (Decidable (_ ≠ _))
  | .write _ _ _ => .isTrue trivial

/-- Between calls. -/
structure CallsOk (s : Sys 1) : Prop where
  sys : SysOk s
  idle : s.pc 0 = .idle
  booked : Booked s

theorem callsOk_booted {s : Sys 1} (hs : Booted s) : CallsOk s := by
  refine ⟨sysOk_booted hs, hs.pc 0, ?_, ?_⟩
  · rw [hs.usedM, hs.ledger]
    rfl
  · rw [hs.pcount, hs.ledger]
    rfl

theorem CallsOk.call {cfg : Config} {s s' : Sys 1} {a : Call} (hok : CallsOk s)
    (hn : a.run cfg s = some s') : CallOf cfg s s' a ∧ CallsOk s' := by
  obtain ⟨hcall, hsys, hidle⟩ := call_cases hok.sys hok.idle hn
  exact ⟨hcall, hsys, hidle, hok.booked.call hcall⟩

theorem reports_call {cfg : Config} {s s' : Sys 1} {a : Call} (hok : CallsOk s)
    (hr : Reports s) (hn : a.run cfg s = some s') : Reports s' ↔ KeepsReports cfg s a := by
  obtain ⟨hcall, hok'⟩ := hok.call hn
  obtain ⟨hclaimed, hlt⟩ := (reports_iff_claimed hok.sys.heap hok.booked).mp hr
  rw [reports_iff_claimed hok'.sys.heap hok'.booked]
  cases hcall with
  | refused _ hL hadd =>
      rw [hadd.claimedM, hL, add_zero]
      exact iff_of_true ⟨hclaimed, hlt⟩ (by simp [KeepsReports])
  | carved hneeds hL hadd =>
      rw [hadd.claimedM, hL, add_zero]
      exact iff_of_true ⟨hclaimed, hlt⟩ fun _ h => absurd h hneeds
  | grown hneeds hL hadd =>
      rw [hadd.claimedM, hL, hclaimed, List.length_cons, Nat.mul_add_one, Nat.cast_add]
      simp [KeepsReports, hneeds]
  | freed _ hmore hL hadd =>
      rw [hadd.claimedM, hL, add_zero]
      exact iff_of_true ⟨hclaimed, hlt⟩ hmore
  | returned _ hlast hheld hL hadd =>
      rw [hadd.claimedM, hL, hclaimed, add_zero]
      refine iff_of_false ?_ fun h => h hlast
      rintro ⟨heq, -⟩
      rw [← List.length_erase_add_one hheld, Nat.mul_add_one, Nat.cast_add, add_eq_left] at heq
      exact absurd heq (by decide)
  | write hL hadd =>
      rw [hadd.claimedM, hL, add_zero]
      exact iff_of_true ⟨hclaimed, hlt⟩ trivial

/-- **When the system calls report the real heap**: in every state of a run, from
boot, of any calls of `slob_alloc` and `slob_free`, exactly when none of them
hands a page back and `claimed_m` does not overflow. -/
theorem reports_iff (cfg : Config) (s s' : Sys 1) (as : List Call) (hboot : (calls cfg).init s)
    (hrun : (calls cfg).replay s as = some s') :
    (calls cfg).Along Reports s as ↔ (calls cfg).StepsMeet (KeepsReports cfg) s as := by
  have hok := callsOk_booted hboot
  have hstep : ∀ s a s', CallsOk s → Reports s → (calls cfg).next s a = some s' →
      (Reports s' ↔ KeepsReports cfg s a) := fun s a s' => reports_call
  refine Machine.along_iff_stepsMeet (fun s a s' hok hn => (CallsOk.call hok hn).2) hstep hok ?_
    hrun
  rw [reports_iff_claimed hok.sys.heap hok.booked, hboot.claimedM, hboot.ledger]
  exact ⟨rfl, by decide⟩

/-- A refused call, two blocks on one page, and one of them freed. -/
def fourCalls : List Call :=
  [.alloc ⟨10, false, 8, noNode⟩ none,
   .alloc ⟨10, false, 8, noNode⟩ (some (1, fun _ => 255, ⟨-1, 0, false, false⟩)),
   .alloc ⟨21, true, 4, noNode⟩ none,
   .free ⟨2048, 10⟩]

theorem reports_iff_fourCalls : ∃ s', (calls uniform).replay (boot 1) fourCalls = some s' ∧
    s'.ledger.live = [⟨2054, 21⟩] ∧ (calls uniform).Along Reports (boot 1) fourCalls := by
  have hrun : ((calls uniform).replay (boot 1) fourCalls).map (fun s => s.ledger.live) =
      some [⟨2054, 21⟩] := by decide +kernel
  obtain ⟨s', hs', hlive⟩ := Option.map_eq_some_iff.mp hrun
  exact ⟨s', hs', hlive,
    (reports_iff uniform (boot 1) s' fourCalls (booted_boot 1) hs').mpr (by decide +kernel)⟩

/-- **The page has gone, but is still reported**: after one block has been
allocated and freed. -/
theorem page_still_reported : ∃ s', (calls uniform).replay (boot 1)
      [.alloc ⟨10, false, 8, noNode⟩ (some (1, fun _ => 255, ⟨-1, 0, false, false⟩)),
        .free ⟨2048, 10⟩] = some s' ∧
    s'.ledger.held = [] ∧ sysSlobUsed s'.heap = 4096 ∧ sysSlobFree s'.heap = 4096 ∧
    ¬ Reports s' := by
  have hrun : ((calls uniform).replay (boot 1)
      [.alloc ⟨10, false, 8, noNode⟩ (some (1, fun _ => 255, ⟨-1, 0, false, false⟩)),
        .free ⟨2048, 10⟩]).map
      (fun s => (s.ledger.held, sysSlobUsed s.heap, sysSlobFree s.heap)) =
      some ([], 4096, 4096) := by decide +kernel
  obtain ⟨s', hs', hend⟩ := Option.map_eq_some_iff.mp hrun
  simp only [Prod.mk.injEq] at hend
  obtain ⟨hheld, hused, hfree⟩ := hend
  refine ⟨s', hs', hheld, hused, hfree, fun hr => ?_⟩
  have := hr.used
  rw [hused, hheld] at this
  exact absurd this (by decide)

/-! ## The counters between calls -/

theorem reach_callsOk {cfg : Config} {s : Sys 1} (hs : (calls cfg).Reach s) : CallsOk s := by
  apply hs.invariant
  · exact fun s hboot => callsOk_booted hboot
  · exact fun s a s' hok _ hn => (hok.call hn).2

/-- Between calls a page is flagged as slob exactly while it is held. -/
theorem CallsOk.slab_iff {s : Sys 1} (hok : CallsOk s) (pn : Nat) :
    (s.heap.page pn).slab = true ↔ pn ∈ s.ledger.held := by
  constructor
  · intro hslab
    refine hok.sys.held_of_slab hslab fun t ht => ?_
    obtain rfl : t = 0 := Subsingleton.elim t 0
    rw [hok.idle] at ht
    cases ht
  · intro hheld
    obtain ⟨c, fl, hp⟩ := hok.sys.heap.pages pn hheld
    exact hp.slab

/-- There are at most as many pages as numbers for them, and page 0 is never held. -/
theorem HeapOk.length_held {h : Heap} {L : Ledger} (hok : HeapOk h L) {m : Nat}
    (hm : ∀ pn ∈ L.held, pn < m) : L.held.length ≤ m - 1 := by
  have hsub : L.held.Subperm (List.range' 1 (m - 1)) := by
    apply List.subperm_of_subset hok.heldNodup
    intro pn hpn
    obtain ⟨c, fl, hp⟩ := hok.pages pn hpn
    have hpos := hp.pos
    have hlt := hm pn hpn
    rw [List.mem_range'_1]
    omega
  simpa using hsub.length_le

/-- `used_m` and `pcount` against the live blocks and the pages flagged as slob,
which are the pages held. -/
structure CountersExact (s : Sys n) : Prop where
  usedM : s.heap.usedM.toNat = bytes s.ledger.live % 2 ^ 32
  pcount : s.heap.pcount.toNat = s.ledger.held.length % 2 ^ 32
  /-- With pages numbered in a word, as they are on 32 bits, `pcount` does not wrap. -/
  pcount_eq : (∀ pn ∈ s.ledger.held, pn < 2 ^ 32) → s.heap.pcount.toNat = s.ledger.held.length
  heldOnce : s.ledger.held.Nodup
  held : ∀ pn, pn ∈ s.ledger.held ↔ (s.heap.page pn).slab = true

/-- **The counters are exact** after any calls of `slob_alloc`, refused ones
included, and of `slob_free`. -/
theorem counters_exact (cfg : Config) (s : Sys 1) (hs : (calls cfg).Reach s) :
    CountersExact s := by
  have hok := reach_callsOk hs
  have hpages : s.heap.pcount.toNat = s.ledger.held.length % 2 ^ 32 := by
    rw [hok.booked.pcount, BitVec.natCast_eq_ofNat, BitVec.toNat_ofNat]
  refine ⟨?_, hpages, fun hword => ?_, hok.sys.heap.heldNodup, fun pn => (hok.slab_iff pn).symm⟩
  · rw [hok.booked.usedM, BitVec.natCast_eq_ofNat, BitVec.toNat_ofNat]
  · have hle := hok.sys.heap.length_held hword
    rw [hpages]
    exact Nat.mod_eq_of_lt (by omega)

/-- One block of 21 bytes is left on one page. -/
theorem counters_exact_fourCalls : ∃ s, (calls uniform).Reach s ∧
    s.heap.usedM.toNat = 21 ∧ s.heap.pcount.toNat = 1 ∧ CountersExact s := by
  have hrun : ((calls uniform).replay (boot 1) fourCalls).map
      (fun s => (s.heap.usedM.toNat, s.heap.pcount.toNat)) = some (21, 1) := by decide +kernel
  obtain ⟨s, hs, hend⟩ := Option.map_eq_some_iff.mp hrun
  obtain ⟨hused, hpages⟩ := Prod.mk.inj hend
  have hreach : (calls uniform).Reach s := Machine.Reach.replay (.init (booted_boot 1)) hs
  exact ⟨s, hreach, hused, hpages, counters_exact uniform s hreach⟩

end OsProjects.Slob
