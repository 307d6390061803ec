import OsProjects.Slob.Sections
import OsProjects.Framework.Machine

/-!
# Concurrent callers of the SLOB heap

Any number of threads call `slob_alloc` and `slob_free`. A call is cut where
`slob_lock` is taken and dropped: the critical sections of `Heap.lean` are
single steps, and so is each stretch of code between them. Between the search
and the insertion of `slob_alloc`, and between the section of `slob_free` and
the release of the page, anything may happen. Callers also write to the blocks
they own.

The page allocator is the environment: it refuses, or hands out a page that
neither SLOB nor a call under way has, with any bytes on it and any
descriptor. A `BUG_ON` or an endless walk sends the thread to `Pc.bug`.

`SysOk` is the invariant of the whole system; every step keeps it
(`SysOk.step`), so it holds in every reachable state (`reach_sysOk`).
-/

namespace OsProjects.Slob

open Framework

/-! ## Threads and states -/

/-- The arguments of a `slob_alloc` call; `zero` is `gfp & __GFP_ZERO`. -/
structure Request where
  size : Nat
  zero : Bool
  align : Nat
  node : Int
deriving DecidableEq, Repr

instance (align : Nat) : Decidable (AlignOk align) :=
  inferInstanceAs (Decidable (_ ∨ ∃ k, k ≤ 12 ∧ align = 2 ^ k))

def Request.Ok (req : Request) : Prop := SizeOk req.size ∧ AlignOk req.align

instance (req : Request) : Decidable req.Ok := inferInstanceAs (Decidable (_ ∧ _))

/-- Numerals name callers, also where there is just one. -/
instance caller_neZero : NeZero 1 := ⟨by decide⟩

/-- Where a thread is when it does not hold `slob_lock`. -/
inductive Pc where
  | idle
  | needPage (req : Request)                          -- before `slob_new_pages`
  | gotPage (req : Request) (pn : Nat)                -- before the insertion
  | finishing (req : Request) (b : Nat) (new : Bool)  -- after the last section
  | releasing (pn : Nat)                              -- `slob_free`, page to give back
  | bug
deriving DecidableEq, Repr

/-- The page a call under way has to itself. -/
def Pc.page : Pc → Option Nat
  | .gotPage _ pn => some pn
  | .releasing pn => some pn
  | _ => none

/-- The block a call under way is about to return. -/
def Pc.block : Pc → Option Block
  | .finishing req b _ => some ⟨b, req.size⟩
  | _ => none

/-- The heap, what it stands for, and where the threads are. -/
structure Sys (n : Nat) where
  heap : Heap
  ledger : Ledger
  pc : Fin n → Pc

inductive Label (n : Nat) where
  | search (t : Fin n) (req : Request)
  | noPage (t : Fin n)
  | newPage (t : Fin n) (pn : Nat) (bytes : Mem) (desc : Page)
  | insert (t : Fin n)
  | finish (t : Fin n)
  | free (t : Fin n) (b : Block)
  | release (t : Fin n)
  | write (b : Block) (off : Nat) (byte : UInt8)

variable {n : Nat}

/-- The block belongs to a caller: it is live and has been returned. -/
def Sys.Owned (s : Sys n) (b : Block) : Prop :=
  b ∈ s.ledger.live ∧ ∀ t, (s.pc t).block ≠ some b

instance (s : Sys n) (b : Block) : Decidable (s.Owned b) :=
  inferInstanceAs (Decidable (_ ∧ _))

/-- The page allocator may hand out the page. -/
def Sys.Fresh (s : Sys n) (pn : Nat) : Prop :=
  0 < pn ∧ pn ∉ s.ledger.held ∧ ∀ t, (s.pc t).page ≠ some pn

instance (s : Sys n) (pn : Nat) : Decidable (s.Fresh pn) :=
  inferInstanceAs (Decidable (_ ∧ _ ∧ _))

/-- A page as it comes from the page allocator. -/
def Heap.loadPage (h : Heap) (pn : Nat) (bytes : Mem) (desc : Page) : Heap :=
  { h.setPage pn desc with
    mem := fun x => if virtToPage (x / 2) = pn then bytes x else h.mem x }

def Sys.goto (s : Sys n) (t : Fin n) (p : Pc) : Sys n :=
  { s with pc := Function.update s.pc t p }

/-- One step of one thread. -/
def next (cfg : Config) (s : Sys n) : Label n → Option (Sys n)
  | .search t req =>
      if s.pc t = .idle ∧ req.Ok then
        match slobAllocSearch cfg s.heap req.size req.align req.node none with
        | none => some (s.goto t .bug)
        | some (none, h) => some (Sys.goto { s with heap := h } t (.needPage req))
        | some (some b, h) =>
            let ledger := ⟨s.ledger.held, ⟨b, req.size⟩ :: s.ledger.live⟩
            some (Sys.goto ⟨h, ledger, s.pc⟩ t (.finishing req b false))
      else none
  | .noPage t =>
      match s.pc t with
      | .needPage _ => some (s.goto t .idle)
      | _ => none
  | .newPage t pn bytes desc =>
      match s.pc t with
      | .needPage req =>
          if s.Fresh pn then
            let h := markSlab (s.heap.loadPage pn bytes desc) pn
            some (Sys.goto { s with heap := h } t (.gotPage req pn))
          else none
      | _ => none
  | .insert t =>
      match s.pc t with
      | .gotPage req pn =>
          match slobAllocInsert s.heap (pageStart pn) req.size req.align with
          | none => some (s.goto t .bug)
          | some (b, h) =>
              let ledger := ⟨pn :: s.ledger.held, ⟨b, req.size⟩ :: s.ledger.live⟩
              some (Sys.goto ⟨h, ledger, s.pc⟩ t (.finishing req b true))
      | _ => none
  | .finish t =>
      match s.pc t with
      | .finishing req b new =>
          let h := slobAllocFinish s.heap b req.size req.zero new
          some (Sys.goto { s with heap := h } t .idle)
      | _ => none
  | .free t b =>
      if s.pc t = .idle ∧ s.Owned b then
        -- `ZERO_OR_NULL_PTR(block)`
        if SLOB_UNIT * b.start ≤ 16 then some s
        -- `BUG_ON(!size)`
        else if b.size = 0 then some (s.goto t .bug)
        else
          match slobFreeSection (debitUsed s.heap b.size) b.start b.size with
          | none => some (s.goto t .bug)
          | some (h, none) =>
              let ledger := ⟨s.ledger.held, s.ledger.live.erase b⟩
              some (Sys.goto ⟨h, ledger, s.pc⟩ t .idle)
          | some (h, some pn) =>
              let ledger := ⟨s.ledger.held.erase pn, s.ledger.live.erase b⟩
              some (Sys.goto ⟨h, ledger, s.pc⟩ t (.releasing pn))
      else none
  | .release t =>
      match s.pc t with
      | .releasing pn => some (Sys.goto { s with heap := slobFreeRelease s.heap pn } t .idle)
      | _ => none
  | .write b off byte =>
      if s.Owned b ∧ off < b.size then
        let mem := Function.update s.heap.mem (SLOB_UNIT * b.start + off) byte
        some { s with heap := { s.heap with mem := mem } }
      else none

/-- Nothing held, nothing listed, nothing counted, no call under way. -/
structure Booted (s : Sys n) : Prop where
  list : ∀ c, s.heap.list c = []
  slab : ∀ pn, (s.heap.page pn).slab = false
  pcount : s.heap.pcount = 0
  free : s.heap.free = 0
  usedM : s.heap.usedM = 0
  claimedM : s.heap.claimedM = 0
  ledger : s.ledger = ⟨[], []⟩
  pc : ∀ t, s.pc t = .idle

def machine (cfg : Config) (n : Nat) : Machine (Sys n) (Label n) := ⟨Booted, next cfg⟩

def bootHeap : Heap where
  mem := fun _ => 0
  page := fun _ => ⟨0, 0, false, false⟩
  list := fun _ => []
  pcount := 0
  free := 0
  usedM := 0
  claimedM := 0

def boot (n : Nat) : Sys n := ⟨bootHeap, ⟨[], []⟩, fun _ => .idle⟩

theorem booted_boot (n : Nat) : Booted (boot n) :=
  ⟨fun _ => rfl, fun _ => rfl, rfl, rfl, rfl, rfl, rfl, fun _ => rfl⟩

/-- `CONFIG_NUMA` off. -/
def uniform : Config := ⟨false, fun _ => 0⟩

/-! ## The invariant of the system -/

/-- What is known at each program point. -/
def PcOk (h : Heap) (L : Ledger) : Pc → Prop
  | .idle => True
  | .needPage req => req.Ok
  | .gotPage req pn => req.Ok ∧ 0 < pn ∧ pn ∉ L.held ∧ (h.page pn).slab = true
  | .finishing req b _ => ⟨b, req.size⟩ ∈ L.live
  | .releasing pn => pn ∉ L.held
  | .bug => False

structure SysOk (s : Sys n) : Prop where
  heap : HeapOk s.heap s.ledger
  pcs : ∀ t, PcOk s.heap s.ledger (s.pc t)
  pageOnce : ∀ t t' pn, (s.pc t).page = some pn → (s.pc t').page = some pn → t = t'
  blockOnce : ∀ t t' b, (s.pc t).block = some b → (s.pc t').block = some b → t = t'
  flagged : ∀ pn, (s.heap.page pn).slab = true →
    pn ∈ s.ledger.held ∨ ∃ t, (s.pc t).page = some pn

theorem sysOk_booted {s : Sys n} (hs : Booted s) : SysOk s := by
  refine ⟨?_, ?_, ?_, ?_, ?_⟩
  · rw [hs.ledger]
    exact heapOk_empty hs.list
  · intro t
    rw [hs.pc]
    trivial
  · intro t t' pn ht
    rw [hs.pc] at ht
    cases ht
  · intro t t' b ht
    rw [hs.pc] at ht
    cases ht
  · intro pn hpn
    rw [hs.slab] at hpn
    cases hpn

/-- A program point survives what other threads do if its page is left alone
and its block stays live. -/
theorem PcOk.mono {h h' : Heap} {L L' : Ledger} {p : Pc} (hp : PcOk h L p)
    (hpage : ∀ pn, p.page = some pn → pn ∉ L.held →
      pn ∉ L'.held ∧ (h'.page pn).slab = (h.page pn).slab)
    (hblock : ∀ b, p.block = some b → b ∈ L.live → b ∈ L'.live) : PcOk h' L' p := by
  cases p with
  | idle => trivial
  | needPage req => exact hp
  | gotPage req pn =>
      obtain ⟨hreq, hpos, hnot, hslab⟩ := hp
      obtain ⟨hnot', hslab'⟩ := hpage pn rfl hnot
      exact ⟨hreq, hpos, hnot', hslab'.trans hslab⟩
  | finishing req b new => exact hblock _ rfl hp
  | releasing pn => exact (hpage pn rfl hp).1
  | bug => exact hp

theorem PcOk.block_live {h : Heap} {L : Ledger} {p : Pc} {b : Block} (hp : PcOk h L p)
    (hb : p.block = some b) : b ∈ L.live := by
  cases p with
  | finishing req b' new =>
      obtain rfl := Option.some.inj hb
      exact hp
  | _ => cases hb

theorem PcOk.page_not_held {h : Heap} {L : Ledger} {p : Pc} {pn : Nat} (hp : PcOk h L p)
    (hpn : p.page = some pn) : pn ∉ L.held := by
  cases p with
  | gotPage req q =>
      obtain rfl := Option.some.inj hpn
      exact hp.2.2.1
  | releasing q =>
      obtain rfl := Option.some.inj hpn
      exact hp
  | _ => cases hpn

/-- **One thread moves**: what has to be shown for the new heap, the new
ledger, and the thread's new program point. -/
theorem SysOk.move {s : Sys n} (hok : SysOk s) {t : Fin n} {p : Pc} {h' : Heap}
    {L' : Ledger} (hheap : HeapOk h' L') (hp : PcOk h' L' p)
    (hothers : ∀ t', t' ≠ t → PcOk h' L' (s.pc t'))
    (hpage : ∀ pn, p.page = some pn → ∀ t', t' ≠ t → (s.pc t').page ≠ some pn)
    (hblock : ∀ b, p.block = some b → ∀ t', t' ≠ t → (s.pc t').block ≠ some b)
    (hflag : ∀ pn, (h'.page pn).slab = true →
      pn ∈ L'.held ∨ p.page = some pn ∨ ∃ t', t' ≠ t ∧ (s.pc t').page = some pn) :
    SysOk (Sys.goto ⟨h', L', s.pc⟩ t p) := by
  have hself : (Sys.goto ⟨h', L', s.pc⟩ t p).pc t = p := by simp [Sys.goto]
  have hother : ∀ t', t' ≠ t → (Sys.goto ⟨h', L', s.pc⟩ t p).pc t' = s.pc t' := by
    intro t' ht
    simp [Sys.goto, ht]
  refine ⟨hheap, ?_, ?_, ?_, ?_⟩
  · intro t'
    by_cases ht : t' = t
    · rw [ht, hself]
      exact hp
    · rw [hother t' ht]
      exact hothers t' ht
  · intro t1 t2 pn h1 h2
    by_cases ht1 : t1 = t <;> by_cases ht2 : t2 = t
    · rw [ht1, ht2]
    · rw [ht1, hself] at h1
      rw [hother t2 ht2] at h2
      exact absurd h2 (hpage pn h1 t2 ht2)
    · rw [ht2, hself] at h2
      rw [hother t1 ht1] at h1
      exact absurd h1 (hpage pn h2 t1 ht1)
    · rw [hother t1 ht1] at h1
      rw [hother t2 ht2] at h2
      exact hok.pageOnce t1 t2 pn h1 h2
  · intro t1 t2 b h1 h2
    by_cases ht1 : t1 = t <;> by_cases ht2 : t2 = t
    · rw [ht1, ht2]
    · rw [ht1, hself] at h1
      rw [hother t2 ht2] at h2
      exact absurd h2 (hblock b h1 t2 ht2)
    · rw [ht2, hself] at h2
      rw [hother t1 ht1] at h1
      exact absurd h1 (hblock b h2 t1 ht1)
    · rw [hother t1 ht1] at h1
      rw [hother t2 ht2] at h2
      exact hok.blockOnce t1 t2 b h1 h2
  · intro pn hpn
    rcases hflag pn hpn with hin | hpg | ⟨t', ht, hpg⟩
    · exact Or.inl hin
    · exact Or.inr ⟨t, by rw [hself]; exact hpg⟩
    · exact Or.inr ⟨t', by rw [hother t' ht]; exact hpg⟩

/-- The thread that moves had no page: whoever has a flagged page is another
one. -/
theorem SysOk.flagged_other {s : Sys n} (hok : SysOk s) {t : Fin n}
    (ht : (s.pc t).page = none) {pn : Nat} (hpn : (s.heap.page pn).slab = true) :
    pn ∈ s.ledger.held ∨ ∃ t', t' ≠ t ∧ (s.pc t').page = some pn := by
  refine (hok.flagged pn hpn).imp_right ?_
  rintro ⟨t', ht'⟩
  refine ⟨t', ?_, ht'⟩
  rintro rfl
  rw [ht] at ht'
  cases ht'

/-- What is on a page that is not held does not matter. -/
theorem HeapOk.loadPage {h : Heap} {L : Ledger} (hok : HeapOk h L) {pn : Nat}
    (hpn : pn ∉ L.held) (bytes : Mem) (desc : Page) : HeapOk (h.loadPage pn bytes desc) L := by
  refine hok.congr (fun x hx _ => if_neg ?_) (fun q hq => ?_) rfl
  · exact ne_of_mem_of_not_mem hx hpn
  · exact Heap.setPage_page_ne _ _ _ _ (ne_of_mem_of_not_mem hq hpn)

theorem HeapOk.not_mem_of_cons {h : Heap} {held : List Nat} {live : List Block} {b : Block}
    (hok : HeapOk h ⟨held, b :: live⟩) : b ∉ live := by
  intro hb
  obtain ⟨hmem, c, fl, hfl⟩ := hok.page_of_live List.mem_cons_self
  have hpos := hfl.tiled.ext_pos hmem
  have hap := hfl.tiled.apart
  rw [blocksOn_cons_same rfl, exts_cons] at hap
  have hself : b.ext.Apart b.ext := (List.pairwise_cons.mp hap).1 _
    (List.mem_map_of_mem (mem_blocksOn.mpr ⟨hb, rfl⟩))
  unfold Ext.Apart Ext.stop at hself
  omega

/-! ## Steps -/

/-- The block still belongs to its caller and holds the same bytes. -/
def Spares (s s' : Sys n) (b : Block) : Prop :=
  s'.Owned b ∧ ∀ x, b.ext.Has (x / 2) → s'.heap.mem x = s.heap.mem x

/-- The label is about the block itself: its owner frees it or writes to it. -/
def Label.Hits (a : Label n) (b : Block) : Prop :=
  match a with
  | .free _ b' => b' = b
  | .write b' _ _ => b' = b
  | _ => False

theorem owned_goto {s : Sys n} {b : Block} (hb : s.Owned b) {h' : Heap} {L' : Ledger}
    {t : Fin n} {p : Pc} (hlive : b ∈ L'.live) (hp : p.block ≠ some b) :
    (Sys.goto ⟨h', L', s.pc⟩ t p).Owned b := by
  refine ⟨hlive, fun t' => ?_⟩
  by_cases ht : t' = t
  · subst ht
    simpa [Sys.goto] using hp
  · simpa [Sys.goto, ht] using hb.2 t'

section Steps

variable {s s' : Sys n} {t : Fin n}

theorem step_search {cfg : Config} {req : Request} (hok : SysOk s)
    (hn : next cfg s (.search t req) = some s') :
    SysOk s' ∧ ∀ b, s.Owned b → Spares s s' b := by
  rw [next] at hn
  split at hn
  case isFalse => cases hn
  case isTrue hg =>
    obtain ⟨hidle, hsize, halign⟩ := hg
    have hnone : (s.pc t).page = none := by rw [hidle]; rfl
    rcases slobAllocSearch_spec hok.heap cfg req.node hsize halign with
      ⟨h', hrun, hs⟩ | ⟨b, h', hrun, hheap, hf, -, -⟩
    · rw [hrun] at hn
      obtain rfl := Option.some.inj hn
      have hpg : h'.page = s.heap.page := hs.page
      refine ⟨hok.move (hok.heap.same hs) ⟨hsize, halign⟩ ?_ nofun nofun ?_, ?_⟩
      · intro t' _
        exact (hok.pcs t').mono (fun pn _ hnot => ⟨hnot, by rw [hpg]⟩) fun _ _ hb => hb
      · intro pn hpn
        rw [hpg] at hpn
        exact (hok.flagged_other hnone hpn).imp_right Or.inr
      · intro b hb
        exact ⟨owned_goto hb hb.1 nofun, fun x _ => congrFun hs.mem x⟩
    · rw [hrun] at hn
      obtain rfl := Option.some.inj hn
      have hnew : (⟨b, req.size⟩ : Block) ∉ s.ledger.live := hheap.not_mem_of_cons
      refine ⟨hok.move hheap List.mem_cons_self ?_ nofun ?_ ?_, ?_⟩
      · intro t' _
        exact (hok.pcs t').mono (fun pn _ hnot => ⟨hnot, by rw [hf.page pn hnot]⟩)
          fun _ _ hb => List.mem_cons_of_mem _ hb
      · rintro b' hb' t' _ ht'
        obtain rfl := Option.some.inj hb'
        exact hnew ((hok.pcs t').block_live ht')
      · intro pn hpn
        by_cases hin : pn ∈ s.ledger.held
        · exact Or.inl hin
        · rw [hf.page pn hin] at hpn
          exact (hok.flagged_other hnone hpn).imp_right Or.inr
      · intro b' hb'
        refine ⟨owned_goto hb' (List.mem_cons_of_mem _ hb'.1) ?_, fun x hx =>
          hf.mem.block hb'.1 hx⟩
        rintro heq
        obtain rfl := Option.some.inj heq
        exact hnew hb'.1

theorem step_noPage {cfg : Config} (hok : SysOk s)
    (hn : next cfg s (.noPage t) = some s') :
    SysOk s' ∧ ∀ b, s.Owned b → Spares s s' b := by
  rw [next] at hn
  split at hn
  case h_2 => cases hn
  case h_1 req hpc =>
    obtain rfl := Option.some.inj hn
    have hnone : (s.pc t).page = none := by rw [hpc]; rfl
    refine ⟨hok.move hok.heap trivial (fun t' _ => hok.pcs t') nofun nofun ?_, ?_⟩
    · intro pn hpn
      exact (hok.flagged_other hnone hpn).imp_right Or.inr
    · intro b hb
      exact ⟨owned_goto hb hb.1 nofun, fun x _ => rfl⟩

theorem step_newPage {cfg : Config} {pn : Nat} {bytes : Mem} {desc : Page} (hok : SysOk s)
    (hn : next cfg s (.newPage t pn bytes desc) = some s') :
    SysOk s' ∧ ∀ b, s.Owned b → Spares s s' b := by
  rw [next] at hn
  split at hn
  case h_2 => cases hn
  case h_1 req hpc =>
    split at hn
    case isFalse => cases hn
    case isTrue hfresh =>
      obtain rfl := Option.some.inj hn
      obtain ⟨hpos, hheld, hother⟩ := hfresh
      have hnone : (s.pc t).page = none := by rw [hpc]; rfl
      have hreq : req.Ok := by
        have := hok.pcs t
        rw [hpc] at this
        exact this
      have hpage : ∀ q, q ≠ pn →
          (markSlab (s.heap.loadPage pn bytes desc) pn).page q = s.heap.page q := by
        intro q hq
        rw [markSlab, Heap.setPage_page_ne _ _ _ _ hq]
        exact Heap.setPage_page_ne _ _ _ _ hq
      have hslab : ((markSlab (s.heap.loadPage pn bytes desc) pn).page pn).slab = true := by
        rw [markSlab, Heap.setPage_page]
      have hmem : ∀ x, virtToPage (x / 2) ≠ pn →
          (markSlab (s.heap.loadPage pn bytes desc) pn).mem x = s.heap.mem x := by
        intro x hx
        exact if_neg hx
      have hheap : HeapOk (markSlab (s.heap.loadPage pn bytes desc) pn) s.ledger := by
        refine (hok.heap.loadPage hheld bytes desc).congr (fun x _ _ => rfl) (fun q hq => ?_) rfl
        exact Heap.setPage_page_ne _ _ _ _ (ne_of_mem_of_not_mem hq hheld)
      refine ⟨hok.move hheap ⟨hreq, hpos, hheld, hslab⟩ ?_ ?_ nofun ?_, ?_⟩
      · intro t' _
        refine (hok.pcs t').mono (fun q hq hnot => ⟨hnot, ?_⟩) fun _ _ hb => hb
        have hne : q ≠ pn := by
          rintro rfl
          exact hother t' hq
        rw [hpage q hne]
      · intro q hq t' _
        obtain rfl := Option.some.inj hq
        exact hother t'
      · intro q hq
        by_cases hne : q = pn
        · exact Or.inr (Or.inl (congrArg some hne.symm))
        · rw [hpage q hne] at hq
          exact (hok.flagged_other hnone hq).imp_right Or.inr
      · intro b hb
        refine ⟨owned_goto hb hb.1 nofun, fun x hx => hmem x ?_⟩
        obtain ⟨hin, c, fl, hfl⟩ := hok.heap.page_of_live hb.1
        obtain ⟨hlo, hhi⟩ := (hfl.tiled.liveIn b hin).bounds hx
        rw [virtToPage_of_bounds hlo hhi]
        exact ne_of_mem_of_not_mem (hok.heap.housed b hb.1) hheld

theorem step_insert {cfg : Config} (hok : SysOk s)
    (hn : next cfg s (.insert t) = some s') :
    SysOk s' ∧ ∀ b, s.Owned b → Spares s s' b := by
  rw [next] at hn
  split at hn
  case h_2 => cases hn
  case h_1 req pn hpc =>
    obtain ⟨⟨hsize, halign⟩, hpos, hheld, hslab⟩ : PcOk s.heap s.ledger (.gotPage req pn) :=
      hpc ▸ hok.pcs t
    have hpage : (s.pc t).page = some pn := by rw [hpc]; rfl
    obtain ⟨h', hrun, hheap, hf, -⟩ :=
      slobAllocInsert_spec hok.heap hpos hheld hslab hsize halign
    rw [hrun] at hn
    obtain rfl := Option.some.inj hn
    have hnew : (⟨pageStart pn, req.size⟩ : Block) ∉ s.ledger.live := hheap.not_mem_of_cons
    refine ⟨hok.move hheap List.mem_cons_self ?_ nofun ?_ ?_, ?_⟩
    · intro t' ht
      refine (hok.pcs t').mono (fun q hq hnot => ?_) fun _ _ hb => List.mem_cons_of_mem _ hb
      have hne : q ∉ pn :: s.ledger.held := by
        refine List.not_mem_cons_of_ne_of_not_mem ?_ hnot
        rintro rfl
        exact ht (hok.pageOnce t' t q hq hpage)
      exact ⟨hne, by rw [hf.page q hne]⟩
    · rintro b' hb' t' _ ht'
      obtain rfl := Option.some.inj hb'
      exact hnew ((hok.pcs t').block_live ht')
    · intro q hq
      by_cases hin : q ∈ pn :: s.ledger.held
      · exact Or.inl hin
      · rw [hf.page q hin] at hq
        rcases hok.flagged q hq with hold | ⟨t', ht'⟩
        · exact absurd (List.mem_cons_of_mem _ hold) hin
        · refine Or.inr (Or.inr ⟨t', ?_, ht'⟩)
          rintro rfl
          rw [hpage] at ht'
          exact hin (Option.some.inj ht' ▸ List.mem_cons_self)
    · intro b' hb'
      refine ⟨owned_goto hb' (List.mem_cons_of_mem _ hb'.1) ?_, fun x hx =>
        hf.mem.block hb'.1 hx⟩
      rintro heq
      obtain rfl := Option.some.inj heq
      exact hnew hb'.1

theorem step_finish {cfg : Config} (hok : SysOk s)
    (hn : next cfg s (.finish t) = some s') :
    SysOk s' ∧ ∀ b, s.Owned b → Spares s s' b := by
  rw [next] at hn
  split at hn
  case h_2 => cases hn
  case h_1 req b new hpc =>
    obtain rfl := Option.some.inj hn
    have hlive : (⟨b, req.size⟩ : Block) ∈ s.ledger.live := by
      have := hok.pcs t
      rw [hpc] at this
      exact this
    have hnone : (s.pc t).page = none := by rw [hpc]; rfl
    have hpage := slobAllocFinish_page s.heap b req.size req.zero new
    have hle := (hok.heap.block_size hlive).2
    have hheap : HeapOk (slobAllocFinish s.heap b req.size req.zero new) s.ledger := by
      refine hok.heap.congr (fun x _ hx => ?_) (fun q _ => by rw [hpage])
        (slobAllocFinish_list s.heap b req.size req.zero new)
      refine slobAllocFinish_frame s.heap hle req.zero new fun hin => hx ?_
      exact covers_exts.mpr ⟨_, hlive, hin⟩
    refine ⟨hok.move hheap trivial ?_ nofun nofun ?_, ?_⟩
    · intro t' _
      exact (hok.pcs t').mono (fun q _ hnot => ⟨hnot, by rw [hpage]⟩) fun _ _ hb => hb
    · intro q hq
      rw [hpage] at hq
      exact (hok.flagged_other hnone hq).imp_right Or.inr
    · intro b' hb'
      refine ⟨owned_goto hb' hb'.1 nofun, fun x hx => ?_⟩
      refine slobAllocFinish_frame s.heap hle req.zero new ?_
      refine (hok.heap.block_apart hb'.1 hlive ?_).not_has hx
      rintro rfl
      exact hb'.2 t (by rw [hpc]; rfl)

theorem step_free {cfg : Config} {b : Block} (hok : SysOk s)
    (hn : next cfg s (.free t b) = some s') :
    SysOk s' ∧ ∀ b', s.Owned b' → b ≠ b' → Spares s s' b' := by
  rw [next] at hn
  split at hn
  case isFalse => cases hn
  case isTrue hg =>
    obtain ⟨hidle, hb⟩ := hg
    have hnone : (s.pc t).page = none := by rw [hidle]; rfl
    rw [if_neg (Nat.not_le.mpr (hok.heap.block_pos hb.1)),
      if_neg (Nat.pos_iff_ne_zero.mp (hok.heap.block_size hb.1).1)] at hn
    have hheap0 : HeapOk (debitUsed s.heap b.size) s.ledger :=
      hok.heap.congr (fun x _ _ => rfl) (fun q _ => rfl) rfl
    have hkeep : ∀ b', b' ∈ s.ledger.live → b' ≠ b → b' ∈ s.ledger.live.erase b :=
      fun b' hb' hne => (List.mem_erase_of_ne hne).mpr hb'
    have hpend : ∀ t' b', (s.pc t').block = some b' → b' ∈ s.ledger.live →
        b' ∈ s.ledger.live.erase b := by
      intro t' b' ht' hb'
      refine hkeep b' hb' ?_
      rintro rfl
      exact hb.2 t' ht'
    rcases slobFreeSection_spec hheap0 hb.1 with
      ⟨h', hrun, hheap, hmem, hpage, -⟩ | ⟨h', hrun, hheap, hf, -⟩
    · -- the page is given up
      rw [hrun] at hn
      obtain rfl := Option.some.inj hn
      have hheld := hok.heap.housed b hb.1
      refine ⟨hok.move hheap ?_ ?_ ?_ nofun ?_, ?_⟩
      · exact fun hin => ((hok.heap.heldNodup.mem_erase_iff).mp hin).1 rfl
      · intro t' _
        refine (hok.pcs t').mono (fun q _ hnot => ⟨fun hin => hnot ?_, ?_⟩) (hpend t')
        · exact List.mem_of_mem_erase hin
        · rw [hpage q (ne_of_mem_of_not_mem hheld hnot).symm, debitUsed_page]
      · intro q hq t' _ ht'
        obtain rfl := Option.some.inj hq
        exact (hok.pcs t').page_not_held ht' hheld
      · intro q hq
        by_cases hne : q = b.pageNo
        · exact Or.inr (Or.inl (congrArg some hne.symm))
        · rw [hpage q hne] at hq
          rcases hok.flagged_other hnone hq with hin | hother
          · exact Or.inl ((List.mem_erase_of_ne hne).mpr hin)
          · exact Or.inr (Or.inr hother)
      · intro b' hb' hne
        exact ⟨owned_goto hb' (hkeep b' hb'.1 hne.symm) nofun, fun x _ => congrFun hmem x⟩
    · -- the page stays
      rw [hrun] at hn
      obtain rfl := Option.some.inj hn
      refine ⟨hok.move hheap trivial ?_ nofun nofun ?_, ?_⟩
      · intro t' _
        refine (hok.pcs t').mono (fun q _ hnot => ⟨hnot, ?_⟩) (hpend t')
        rw [hf.page q hnot, debitUsed_page]
      · intro q hq
        by_cases hin : q ∈ s.ledger.held
        · exact Or.inl hin
        · rw [hf.page q hin] at hq
          exact (hok.flagged_other hnone hq).imp_right Or.inr
      · intro b' hb' hne
        have hlive := hkeep b' hb'.1 hne.symm
        exact ⟨owned_goto hb' hlive nofun, fun x hx => hf.mem.block hlive hx⟩

theorem step_release {cfg : Config} (hok : SysOk s)
    (hn : next cfg s (.release t) = some s') :
    SysOk s' ∧ ∀ b, s.Owned b → Spares s s' b := by
  rw [next] at hn
  split at hn
  case h_2 => cases hn
  case h_1 pn hpc =>
    obtain rfl := Option.some.inj hn
    have hpage : (s.pc t).page = some pn := by rw [hpc]; rfl
    have hheld := (hok.pcs t).page_not_held hpage
    have hsame : ∀ q, q ≠ pn → (slobFreeRelease s.heap pn).page q = s.heap.page q :=
      fun q hq => Heap.setPage_page_ne _ _ _ _ hq
    have hheap : HeapOk (slobFreeRelease s.heap pn) s.ledger :=
      hok.heap.congr (fun x _ _ => rfl)
        (fun q hq => hsame q (ne_of_mem_of_not_mem hq hheld)) rfl
    refine ⟨hok.move hheap trivial ?_ nofun nofun ?_, ?_⟩
    · intro t' ht
      refine (hok.pcs t').mono (fun q hq hnot => ⟨hnot, ?_⟩) fun _ _ hb => hb
      have hne : q ≠ pn := by
        rintro rfl
        exact ht (hok.pageOnce t' t q hq hpage)
      rw [hsame q hne]
    · intro q hq
      by_cases hne : q = pn
      · subst hne
        rw [slobFreeRelease, Heap.setPage_page] at hq
        cases hq
      · rw [hsame q hne] at hq
        rcases hok.flagged q hq with hin | ⟨t', ht'⟩
        · exact Or.inl hin
        · refine Or.inr (Or.inr ⟨t', ?_, ht'⟩)
          rintro rfl
          rw [hpage] at ht'
          exact hne (Option.some.inj ht').symm
    · intro b hb
      exact ⟨owned_goto hb hb.1 nofun, fun x _ => rfl⟩

theorem step_write {cfg : Config} {b : Block} {off : Nat} {byte : UInt8} (hok : SysOk s)
    (hn : next cfg s (.write b off byte) = some s') :
    SysOk s' ∧ ∀ b', s.Owned b' → b ≠ b' → Spares s s' b' := by
  rw [next] at hn
  split at hn
  case isFalse => cases hn
  case isTrue hg =>
    obtain ⟨hb, hoff⟩ := hg
    obtain rfl := Option.some.inj hn
    have hle := (hok.heap.block_size hb.1).2
    have hin : b.ext.Has ((SLOB_UNIT * b.start + off) / 2) :=
      Block.has_byte hle (Nat.le_add_right _ _) (Nat.add_lt_add_left hoff _)
    refine ⟨⟨?_, hok.pcs, hok.pageOnce, hok.blockOnce, hok.flagged⟩, ?_⟩
    · refine hok.heap.congr (fun x _ hx => Function.update_of_ne ?_ _ _) (fun q _ => rfl) rfl
      rintro rfl
      exact hx (covers_exts.mpr ⟨b, hb.1, hin⟩)
    · intro b' hb' hne
      refine ⟨hb', fun x hx => Function.update_of_ne ?_ _ _⟩
      rintro rfl
      exact (hok.heap.block_apart hb.1 hb'.1 hne).not_has hin hx

/-- **Every step keeps the invariant** and spares every owned block that it is
not itself about. -/
theorem SysOk.step {cfg : Config} {a : Label n} (hok : SysOk s)
    (hn : next cfg s a = some s') :
    SysOk s' ∧ ∀ b, s.Owned b → ¬ a.Hits b → Spares s s' b := by
  cases a with
  | search t req => exact (step_search hok hn).imp_right fun h b hb _ => h b hb
  | noPage t => exact (step_noPage hok hn).imp_right fun h b hb _ => h b hb
  | newPage t pn bytes desc => exact (step_newPage hok hn).imp_right fun h b hb _ => h b hb
  | insert t => exact (step_insert hok hn).imp_right fun h b hb _ => h b hb
  | finish t => exact (step_finish hok hn).imp_right fun h b hb _ => h b hb
  | free t b => exact step_free hok hn
  | release t => exact (step_release hok hn).imp_right fun h b hb _ => h b hb
  | write b off byte => exact step_write hok hn

end Steps

theorem reach_sysOk {cfg : Config} {s : Sys n} (hs : (machine cfg n).Reach s) :
    SysOk s := by
  refine hs.invariant (fun _ => sysOk_booted) ?_
  intro s a s' hok _ hn
  exact (SysOk.step hok hn).1

end OsProjects.Slob
