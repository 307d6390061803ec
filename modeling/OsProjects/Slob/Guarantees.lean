import OsProjects.Slob.Calls

/-!
# What holds in every reachable state

Read off the invariant of the system, in terms of page memory, descriptors and
lists only:

- `pages_report` — every slob page decodes to a coalesced free list that,
  together with the live blocks, tiles the page; which list it is on follows;
- `live_bytes_kept` — no step and no call touches the bytes of a block that
  belongs to a caller, and blocks asked for zeroed come back zeroed;
- `size_classes_kept` — a page serves one size class for as long as it is held.
-/

namespace OsProjects.Slob

open Framework

/-! ## A run to look at -/

/-- Two threads allocate on one page: the second call finds the page the first
one has just put on the list, and returns before it. -/
def twoCallers : List (Label 2) :=
  [.search 0 ⟨10, false, 8, noNode⟩,
   .newPage 0 1 (fun _ => 255) ⟨-1, 0, false, false⟩,
   .insert 0,
   .search 1 ⟨21, true, 4, noNode⟩,
   .finish 1,
   .finish 0]

theorem twoCallers_end : ∃ s, (machine uniform 2).Reach s ∧
    s.ledger.held = [1] ∧ s.ledger.live = [⟨2054, 21⟩, ⟨2048, 10⟩] ∧
    (∀ t, s.pc t = .idle) ∧ (s.heap.page 1).slab = true := by
  have hrun : ∃ s, (machine uniform 2).replay (boot 2) twoCallers = some s := by
    rw [← Option.isSome_iff_exists]
    decide +kernel
  obtain ⟨s, hs⟩ := hrun
  have hledger : ((machine uniform 2).replay (boot 2) twoCallers).map
      (fun s => (s.ledger.held, s.ledger.live, s.pc 0, s.pc 1, (s.heap.page 1).slab)) =
      some ([1], [⟨2054, 21⟩, ⟨2048, 10⟩], .idle, .idle, true) := by
    decide +kernel
  rw [hs] at hledger
  simp only [Option.map_some, Option.some.injEq, Prod.mk.injEq] at hledger
  obtain ⟨h1, h2, h3, h4, h5⟩ := hledger
  refine ⟨s, Machine.Reach.replay (.init (booted_boot 2)) hs, h1, h2, ?_, h5⟩
  intro t
  match t with
  | 0 => exact h3
  | 1 => exact h4

/-! ## Pages -/

/-- What is to be seen of one slob page. -/
structure PageReport (h : Heap) (live : List Block) (pn : Nat) (fl : List Ext) : Prop where
  decoded : 0 < (h.page pn).units →
    decode h.mem (SLOB_UNITS PAGE_SIZE) (h.page pn).freelist = some fl
  full : (h.page pn).units = 0 → fl = []
  inPage : ∀ e ∈ fl, 0 < e.len ∧ InPage pn e
  coalesced : fl.Pairwise fun e f => e.stop < f.start
  sum : (total fl : Int) = (h.page pn).units
  apart : (fl ++ exts (blocksOn live pn)).Pairwise Ext.Apart
  tiles : ∀ u, Covers (fl ++ exts (blocksOn live pn)) u ↔
    pageStart pn ≤ u ∧ u < pageStop pn
  listed : (∃! c, pn ∈ h.list c) ↔
    0 < (h.page pn).units ∧ (h.page pn).units < SLOB_UNITS PAGE_SIZE
  unlisted : (h.page pn).units = 0 → ∀ c, pn ∉ h.list c

theorem PageGood.report {h : Heap} {c : SlobList} {live : List Block} {pn : Nat}
    {fl : List Ext} (hp : PageGood h c (blocksOn live pn) pn fl)
    (hocc : blocksOn live pn ≠ []) : PageReport h live pn fl := by
  have hlt := hp.tiled.total_lt hocc
  have hpos : 0 < (h.page pn).units ↔ fl ≠ [] := by
    rw [ne_eq, ← hp.units_zero, hp.units]
    omega
  refine ⟨fun hu => hp.free.decode_eq (hpos.mp hu), hp.units_zero.mp, ?_, hp.free.gapped.gap,
    hp.units.symm, hp.tiled.all_apart, ?_, ?_, ?_⟩
  · exact fun e he => ⟨hp.free.gapped.pos e he, hp.free.inPage e he⟩
  · intro u
    constructor
    · rintro ⟨e, he, heu⟩
      exact (hp.tiled.all_inPage e he).bounds heu
    · exact fun hu => hp.tiled.all_cover u hu.1 hu.2
  · rw [hpos]
    constructor
    · rintro ⟨d, hd, -⟩
      refine ⟨((hp.listed d).mp hd).1, ?_⟩
      rw [hp.units, SLOB_UNITS_PAGE_SIZE]
      omega
    · rintro ⟨hne, -⟩
      exact ⟨c, (hp.listed c).mpr ⟨hne, rfl⟩, fun d hd => ((hp.listed d).mp hd).2⟩
  · intro h0 d hd
    exact ((hp.listed d).mp hd).1 (hp.units_zero.mp h0)

variable {n : Nat} {s : Sys n}

/-- A page flagged as slob and not in the hands of a call under way is held. -/
theorem SysOk.held_of_slab (hok : SysOk s) {pn : Nat}
    (hslab : (s.heap.page pn).slab = true) (hnot : ∀ t, (s.pc t).page ≠ some pn) :
    pn ∈ s.ledger.held := by
  rcases hok.flagged pn hslab with hin | ⟨t, ht⟩
  · exact hin
  · exact absurd ht (hnot t)

/-- **The heap representation invariant.** Whatever the interleaving, no call
hits a `BUG_ON` or an endless walk, every slob page is as `PageReport` says,
and nothing else is on the lists, which hold no page twice. -/
theorem pages_report (cfg : Config) (n : Nat) (s : Sys n) (hs : (machine cfg n).Reach s) :
    (∀ t, s.pc t ≠ .bug) ∧
    (∀ pn, (s.heap.page pn).slab = true → (∀ t, (s.pc t).page ≠ some pn) →
      ∃ fl, PageReport s.heap s.ledger.live pn fl) ∧
    (∀ c, (s.heap.list c).Nodup ∧ ∀ pn ∈ s.heap.list c,
      (s.heap.page pn).slab = true ∧ ∀ t, (s.pc t).page ≠ some pn) := by
  have hok := reach_sysOk hs
  refine ⟨fun t ht => ?_, fun pn hslab hnot => ?_, fun c => ⟨hok.heap.listNodup c, ?_⟩⟩
  · have := hok.pcs t
    rw [ht] at this
    exact this
  · have hheld := hok.held_of_slab hslab hnot
    obtain ⟨c, fl, hp⟩ := hok.heap.pages pn hheld
    exact ⟨fl, hp.report (hok.heap.occupied pn hheld)⟩
  · intro pn hpn
    have hheld := hok.heap.of_listed hpn
    obtain ⟨c, fl, hp⟩ := hok.heap.pages pn hheld
    exact ⟨hp.slab, fun t ht => (hok.pcs t).page_not_held ht hheld⟩

theorem pages_report_twoCallers : ∃ s, (machine uniform 2).Reach s ∧
    s.ledger.live = [⟨2054, 21⟩, ⟨2048, 10⟩] ∧
    ∃ fl, PageReport s.heap s.ledger.live 1 fl := by
  obtain ⟨s, hs, -, hlive, hpc, hslab⟩ := twoCallers_end
  refine ⟨s, hs, hlive, (pages_report uniform 2 s hs).2.1 1 hslab fun t => ?_⟩
  rw [hpc]
  nofun

/-! ## Bytes of live blocks -/

/-- **Runs spare what their labels are not about.** The induction is on the
labels; the step is `SysOk.step`. -/
theorem replay_spares {cfg : Config} {b : Block} {s' : Sys n} :
    ∀ {as : List (Label n)} {s : Sys n}, SysOk s →
    (machine cfg n).replay s as = some s' → s.Owned b → (∀ a ∈ as, ¬ a.Hits b) →
    Spares s s' b
  | [], s, _, hrun, hb, _ => by
      obtain rfl := Option.some.inj hrun
      exact ⟨hb, fun _ _ => rfl⟩
  | a :: as, s, hok, hrun, hb, hno => by
      obtain ⟨s1, hn, hrest⟩ := Machine.replay_cons hrun
      obtain ⟨hok1, hspare⟩ := SysOk.step hok hn
      obtain ⟨hb1, hmem1⟩ := hspare b hb (hno a List.mem_cons_self)
      obtain ⟨hb2, hmem2⟩ := replay_spares hok1 hrest hb1
        fun a' ha' => hno a' (List.mem_cons_of_mem _ ha')
      exact ⟨hb2, fun x hx => (hmem2 x hx).trans (hmem1 x hx)⟩

/-- The byte at offset `off` of a block. -/
def Block.byte (b : Block) (m : Mem) (off : Nat) : UInt8 := m (SLOB_UNIT * b.start + off)

theorem HeapOk.has_off {h : Heap} {L : Ledger} (hok : HeapOk h L) {b : Block}
    (hb : b ∈ L.live) {off : Nat} (hoff : off < b.size) :
    b.ext.Has ((SLOB_UNIT * b.start + off) / 2) :=
  Block.has_byte (hok.block_size hb).2 (Nat.le_add_right _ _) (Nat.add_lt_add_left hoff _)

/-- **Live block contents are never touched by the allocator.** From any
reachable state:
* along any steps of any threads, a block that belongs to a caller keeps its
  bytes until its owner writes to it or frees it;
* a block asked for with `__GFP_ZERO` is zeroed by the step that returns it;
* a whole `slob_alloc` keeps every byte of every live block and returns zeroed
  memory if asked to;
* a whole `slob_free` keeps every byte of every other live block. -/
theorem live_bytes_kept (cfg : Config) (n : Nat) (s : Sys n)
    (hs : (machine cfg n).Reach s) :
    (∀ as s' b, (machine cfg n).replay s as = some s' → s.Owned b →
      (∀ a ∈ as, ¬ a.Hits b) →
      s'.Owned b ∧ ∀ off < b.size, b.byte s'.heap.mem off = b.byte s.heap.mem off) ∧
    (∀ t req b new, s.pc t = .finishing req b new → req.zero = true →
      ∃ s', next cfg s (.finish t) = some s' ∧
        ∀ off < req.size, Block.byte ⟨b, req.size⟩ s'.heap.mem off = 0) ∧
    (∀ (req : Request) pg, req.Ok → (∀ pn, pg = some pn → s.Fresh pn) →
      ∃ r h', slobAlloc cfg s.heap req.size req.zero req.align req.node none pg =
          some (r, h') ∧
        (∀ b ∈ s.ledger.live, ∀ off < b.size, b.byte h'.mem off = b.byte s.heap.mem off) ∧
        (∀ b, r = some b → req.zero = true →
          ∀ off < req.size, Block.byte ⟨b, req.size⟩ h'.mem off = 0)) ∧
    (∀ b ∈ s.ledger.live,
      ∃ h', slobFree s.heap (SLOB_UNIT * b.start) b.size = some h' ∧
        ∀ b' ∈ s.ledger.live.erase b, ∀ off < b'.size,
          b'.byte h'.mem off = b'.byte s.heap.mem off) := by
  have hok := reach_sysOk hs
  refine ⟨?_, ?_, ?_, ?_⟩
  · intro as s' b hrun hb hno
    obtain ⟨hb', hmem⟩ := replay_spares hok hrun hb hno
    exact ⟨hb', fun off hoff => hmem _ (hok.heap.has_off hb.1 hoff)⟩
  · intro t req b new hpc hzero
    refine ⟨_, by rw [next, hpc], fun off hoff => ?_⟩
    have hz := slobAllocFinish_zeroed s.heap b req.size new (Nat.le_add_right _ _)
      (Nat.add_lt_add_left hoff _)
    rw [← hzero] at hz
    exact hz
  · intro req pg hreq hpg
    rcases slobAlloc_spec hok.heap cfg req.zero req.node hreq.1 hreq.2
        (fun pn h => ⟨(hpg pn h).1, (hpg pn h).2.1⟩) with
      ⟨h', hrun, -, hsame⟩ | ⟨pg', b, h', hrun, -, hal, -⟩
    · exact ⟨none, h', hrun, fun b _ off _ => congrFun hsame.mem _, by simp⟩
    · refine ⟨some b, h', hrun, fun b' hb' off hoff => ?_, fun b' hb' hzero => ?_⟩
      · exact hal.frame.mem.block hb' (hok.heap.has_off hb' hoff)
      · obtain rfl := Option.some.inj hb'
        exact hal.zeroed hzero
  · intro b hb
    obtain ⟨h', pg, hrun, hok', hw, -⟩ := slobFree_spec hok.heap hb
    refine ⟨h', hrun, fun b' hb' off hoff => ?_⟩
    exact hw.block hb' (hok.heap.has_off (List.mem_of_mem_erase hb') hoff)

theorem live_bytes_kept_twoCallers : ∃ s, (machine uniform 2).Reach s ∧
    ∃ h', slobFree s.heap (2 * 2048) 10 = some h' ∧
      ∀ off < 21, Block.byte ⟨2054, 21⟩ h'.mem off = Block.byte ⟨2054, 21⟩ s.heap.mem off := by
  obtain ⟨s, hs, -, hlive, -, -⟩ := twoCallers_end
  have hb : (⟨2048, 10⟩ : Block) ∈ s.ledger.live := by
    rw [hlive]
    decide
  obtain ⟨h', hrun, hkeep⟩ := (live_bytes_kept uniform 2 s hs).2.2.2 ⟨2048, 10⟩ hb
  refine ⟨s, hs, h', hrun, hkeep ⟨2054, 21⟩ ?_⟩
  rw [hlive]
  decide

/-! ## Size classes -/

/-- **Pages stay segregated by size class.** -/
theorem size_classes_kept (cfg : Config) (n : Nat) (s : Sys n)
    (hs : (machine cfg n).Reach s) (b : Block) (hb : b ∈ s.ledger.live) :
    (∀ b' ∈ s.ledger.live, b'.pageNo = b.pageNo → slobListOf b'.size = slobListOf b.size) ∧
    ∀ c, b.pageNo ∈ s.heap.list c → c = slobListOf b.size := by
  have hok := reach_sysOk hs
  obtain ⟨hmem, c, fl, hp⟩ := hok.heap.page_of_live hb
  have hclass := hp.classed b hmem
  constructor
  · intro b' hb' hpg
    rw [hclass]
    exact hp.classed b' (mem_blocksOn.mpr ⟨hb', hpg⟩)
  · intro d hd
    rw [hclass]
    exact ((hp.listed d).mp hd).2

theorem size_classes_kept_twoCallers : ∃ s, (machine uniform 2).Reach s ∧
    (⟨2048, 10⟩ : Block) ∈ s.ledger.live ∧
    ∀ c, Block.pageNo ⟨2048, 10⟩ ∈ s.heap.list c → c = slobListOf 10 := by
  obtain ⟨s, hs, -, hlive, -, -⟩ := twoCallers_end
  have hb : (⟨2048, 10⟩ : Block) ∈ s.ledger.live := by
    rw [hlive]
    decide
  exact ⟨s, hs, hb, (size_classes_kept uniform 2 s hs ⟨2048, 10⟩ hb).2⟩

end OsProjects.Slob
