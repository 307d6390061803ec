import OsProjects.Slob.Heap

/-!
# The heap representation invariant

The ledger is what the heap is for: which pages SLOB holds and which blocks
its callers own. `HeapOk h L` says that `h` represents `L`, page by page
(`PageGood`): what is free on a page is exactly what is not live there. Since
gapped lists are canonical, the decoded free list, `sp->units` and the list a
page is on are then all functions of the ledger.

A critical section works on one page: `OnlyPage` says what it left alone and
`HeapOk.change` puts the heap back together.
-/

namespace OsProjects.Slob

open Framework

/-! ## Ledgers -/

/-- A live block: its first unit and the size it was asked for with. -/
structure Block where
  start : Nat
  size : Nat
deriving DecidableEq, Repr

/-- The units the block occupies. -/
def Block.ext (b : Block) : Ext := ⟨b.start, SLOB_UNITS b.size⟩

def Block.pageNo (b : Block) : Nat := virtToPage b.start

def exts (bs : List Block) : List Ext := bs.map Block.ext

@[simp] theorem exts_nil : exts [] = [] := rfl

@[simp] theorem exts_cons (b : Block) (bs : List Block) :
    exts (b :: bs) = b.ext :: exts bs := rfl

theorem covers_exts {bs : List Block} {u : Nat} :
    Covers (exts bs) u ↔ ∃ b ∈ bs, b.ext.Has u := by
  simp [Covers, exts]

/-- The blocks of one page. -/
def blocksOn (live : List Block) (pn : Nat) : List Block :=
  live.filter fun b => b.pageNo == pn

theorem mem_blocksOn {live : List Block} {pn : Nat} {b : Block} :
    b ∈ blocksOn live pn ↔ b ∈ live ∧ b.pageNo = pn := by
  simp [blocksOn]

@[simp] theorem blocksOn_cons_same {live : List Block} {pn : Nat} {b : Block}
    (h : b.pageNo = pn) : blocksOn (b :: live) pn = b :: blocksOn live pn := by
  simp [blocksOn, h]

@[simp] theorem blocksOn_cons_ne {live : List Block} {pn : Nat} {b : Block}
    (h : b.pageNo ≠ pn) : blocksOn (b :: live) pn = blocksOn live pn := by
  simp [blocksOn, h]

theorem blocksOn_erase_same {live : List Block} {b : Block} :
    blocksOn (live.erase b) b.pageNo = (blocksOn live b.pageNo).erase b := by
  rw [blocksOn, blocksOn, List.erase_filter]

theorem blocksOn_erase_ne {live : List Block} {pn : Nat} {b : Block}
    (h : b.pageNo ≠ pn) : blocksOn (live.erase b) pn = blocksOn live pn := by
  have hnot : b ∉ blocksOn live pn := fun hb => h (mem_blocksOn.mp hb).2
  rw [blocksOn, ← List.erase_filter]
  exact List.erase_of_not_mem hnot

theorem virtToPage_of_bounds {pn u : Nat} (hlo : pageStart pn ≤ u) (hhi : u < pageStop pn) :
    virtToPage u = pn := by
  unfold virtToPage
  rw [SLOB_UNITS_PAGE_SIZE]
  unfold pageStart pageStop at *
  omega

theorem InPage.virtToPage {pn : Nat} {e : Ext} (h : InPage pn e) (hpos : 0 < e.len) :
    virtToPage e.start = pn := by
  unfold InPage Ext.Within Ext.stop at h
  exact virtToPage_of_bounds h.1 (by omega)

/-- The pages SLOB holds and the blocks its callers own. -/
structure Ledger where
  held : List Nat
  live : List Block

/-! ## One page -/

theorem InPage.bounds {pn : Nat} {e : Ext} {u : Nat} (hin : InPage pn e) (hu : e.Has u) :
    pageStart pn ≤ u ∧ u < pageStop pn := by
  unfold InPage Ext.Within at hin
  unfold Ext.Has at hu
  omega

/-- The free blocks `fl` are what the live blocks `bs` leave of page `pn`. -/
structure Tiled (pn : Nat) (bs : List Block) (fl : List Ext) : Prop where
  gapped : Gapped fl
  freeIn : ∀ e ∈ fl, InPage pn e
  complement : ∀ u, pageStart pn ≤ u → u < pageStop pn →
    (Covers fl u ↔ ¬ Covers (exts bs) u)
  sized : ∀ b ∈ bs, 0 < b.size ∧ b.size ≤ PAGE_SIZE
  liveIn : ∀ b ∈ bs, InPage pn b.ext
  apart : (exts bs).Pairwise Ext.Apart

section Tiled

variable {pn : Nat} {bs : List Block} {fl : List Ext}

theorem Tiled.ext_pos (ht : Tiled pn bs fl) {b : Block} (hb : b ∈ bs) : 0 < b.ext.len :=
  SLOB_UNITS_pos (ht.sized b hb).1 (ht.sized b hb).2

theorem Tiled.free_apart (ht : Tiled pn bs fl) {e : Ext} (he : e ∈ fl)
    {b : Block} (hb : b ∈ bs) : e.Apart b.ext := by
  refine Ext.apart_of_not_has (ht.gapped.pos e he) (ht.ext_pos hb) ?_
  intro u heu hbu
  obtain ⟨hlo, hhi⟩ := (ht.freeIn e he).bounds heu
  have hcov : Covers fl u := ⟨e, he, heu⟩
  exact (ht.complement u hlo hhi).mp hcov (covers_exts.mpr ⟨b, hb, hbu⟩)

/-- Free and live blocks are pairwise apart. -/
theorem Tiled.all_apart (ht : Tiled pn bs fl) : (fl ++ exts bs).Pairwise Ext.Apart := by
  refine List.pairwise_append.mpr ⟨ht.gapped.apart, ht.apart, ?_⟩
  intro e he f hf
  obtain ⟨b, hb, rfl⟩ := List.mem_map.mp hf
  exact ht.free_apart he hb

theorem Tiled.all_inPage (ht : Tiled pn bs fl) : ∀ e ∈ fl ++ exts bs, InPage pn e := by
  intro e he
  rcases List.mem_append.mp he with he | he
  · exact ht.freeIn e he
  · obtain ⟨b, hb, rfl⟩ := List.mem_map.mp he
    exact ht.liveIn b hb

theorem Tiled.all_cover (ht : Tiled pn bs fl) (u : Nat)
    (hlo : pageStart pn ≤ u) (hhi : u < pageStop pn) : Covers (fl ++ exts bs) u := by
  rw [covers_append, ht.complement u hlo hhi]
  exact (Classical.em (Covers (exts bs) u)).symm

/-- **Accounting on one page**: free units and live units make up the page. -/
theorem Tiled.total_add (ht : Tiled pn bs fl) : total fl + total (exts bs) = 2048 := by
  have h1 := total_of_covers ht.all_apart ht.all_inPage ht.all_cover
  have h2 := pageStop_eq pn
  rw [total_append] at h1
  omega

theorem perm_exts_erase {b : Block} (hb : b ∈ bs) :
    (exts bs).Perm (b.ext :: exts (bs.erase b)) :=
  (List.perm_cons_erase hb).map Block.ext

theorem total_exts_erase {b : Block} (hb : b ∈ bs) :
    SLOB_UNITS b.size + total (exts (bs.erase b)) = total (exts bs) := by
  rw [total_perm (perm_exts_erase hb), total_cons]
  rfl

/-- A page with a live block on it is not all free. -/
theorem Tiled.total_lt (ht : Tiled pn bs fl) (hne : bs ≠ []) : total fl < 2048 := by
  obtain ⟨b, hb⟩ := List.exists_mem_of_ne_nil bs hne
  have h1 := ht.total_add
  have h2 := total_exts_erase hb
  have h3 : 0 < SLOB_UNITS b.size := ht.ext_pos hb
  omega

/-- Carving a live block out of a free one. -/
theorem Tiled.carve {pre post : List Ext} {e : Ext} {b : Block}
    (ht : Tiled pn bs (pre ++ e :: post)) (hsize : 0 < b.size ∧ b.size ≤ PAGE_SIZE)
    (hlo : e.start ≤ b.start) (hhi : b.start + SLOB_UNITS b.size ≤ e.stop)
    (hin : ∀ f ∈ pre ++ (cut e b.start (SLOB_UNITS b.size) ++ post), InPage pn f) :
    Tiled pn (b :: bs) (pre ++ (cut e b.start (SLOB_UNITS b.size) ++ post)) := by
  have he : e ∈ pre ++ e :: post := by simp
  have hpos : 0 < SLOB_UNITS b.size := SLOB_UNITS_pos hsize.1 hsize.2
  refine ⟨ht.gapped.cut hlo hpos hhi, hin, ?_, ?_, ?_, ?_⟩
  · intro u h1 h2
    rw [ht.gapped.covers_cut hlo hhi, ht.complement u h1 h2, exts_cons, covers_cons,
      not_or, and_comm]
    rfl
  · exact List.forall_mem_cons.mpr ⟨hsize, ht.sized⟩
  · exact List.forall_mem_cons.mpr ⟨(ht.freeIn e he).of_within hlo hhi, ht.liveIn⟩
  · refine List.pairwise_cons.mpr ⟨?_, ht.apart⟩
    intro f hf
    obtain ⟨b', hb', rfl⟩ := List.mem_map.mp hf
    have hap := ht.free_apart he hb'
    simp only [Ext.Apart, Ext.stop, Block.ext] at hap hhi ⊢
    omega

/-- Returning a live block. -/
theorem Tiled.erase {b : Block} {fl' : List Ext} (ht : Tiled pn bs fl) (hb : b ∈ bs)
    (hgapped : Gapped fl') (hin : ∀ e ∈ fl', InPage pn e)
    (hcov : ∀ u, Covers fl' u ↔ b.ext.Has u ∨ Covers fl u) :
    Tiled pn (bs.erase b) fl' := by
  have hperm := perm_exts_erase hb
  have hap : (b.ext :: exts (bs.erase b)).Pairwise Ext.Apart :=
    (hperm.pairwise_iff fun h => h.symm).mp ht.apart
  obtain ⟨hbap, hrest⟩ := List.pairwise_cons.mp hap
  refine ⟨hgapped, hin, ?_, fun x hx => ht.sized x (List.mem_of_mem_erase hx),
    fun x hx => ht.liveIn x (List.mem_of_mem_erase hx), hrest⟩
  intro u hlo hhi
  rw [hcov, ht.complement u hlo hhi, covers_perm hperm, covers_cons]
  -- what is in `b` is in no other live block
  have hnot : b.ext.Has u → ¬ Covers (exts (bs.erase b)) u := by
    rintro hbu ⟨f, hf, hfu⟩
    exact (hbap f hf).not_has hbu hfu
  tauto

end Tiled

/-- Page `pn` of the heap serves size class `c` and represents the live blocks
`bs`; `fl` is its free list. -/
structure PageGood (h : Heap) (c : SlobList) (bs : List Block) (pn : Nat)
    (fl : List Ext) : Prop where
  tiled : Tiled pn bs fl
  pos : 0 < pn
  slab : (h.page pn).slab = true
  free : FreeList (h.view pn) pn fl
  units : (h.page pn).units = total fl
  flag : (h.page pn).slobFree = true ↔ fl ≠ []
  classed : ∀ b ∈ bs, slobListOf b.size = c
  listed : ∀ d, pn ∈ h.list d ↔ fl ≠ [] ∧ d = c

section PageGood

variable {h : Heap} {c : SlobList} {bs : List Block} {pn : Nat} {fl : List Ext}

/-- Nothing free is nothing counted. -/
theorem PageGood.units_zero (hp : PageGood h c bs pn fl) :
    (h.page pn).units = 0 ↔ fl = [] := by
  rw [hp.units, Int.natCast_eq_zero, hp.free.gapped.total_eq_zero]

end PageGood

/-! ## Working on one page -/

/-- From `h` to `h'` only page `sp` was worked on, and its memory was written
only where one of `es` lies. -/
structure OnlyPage (h h' : Heap) (sp : Nat) (es : List Ext) : Prop where
  page : ∀ q, q ≠ sp → h'.page q = h.page q
  mem : SameOutside es h.mem h'.mem
  list : ∀ q, q ≠ sp → ∀ d, q ∈ h'.list d ↔ q ∈ h.list d
  counters : SameCounters h h'

theorem OnlyPage.trans {h h' h'' : Heap} {sp : Nat} {es : List Ext}
    (h1 : OnlyPage h h' sp es) (h2 : OnlyPage h' h'' sp es) : OnlyPage h h'' sp es :=
  ⟨fun q hq => (h2.page q hq).trans (h1.page q hq), h1.mem.trans h2.mem,
    fun q hq d => (h2.list q hq d).trans (h1.list q hq d), h1.counters.trans h2.counters⟩

theorem OnlyPage.mono {h h' : Heap} {sp : Nat} {es fs : List Ext}
    (ho : OnlyPage h h' sp es) (hsub : ∀ u, Covers es u → Covers fs u) :
    OnlyPage h h' sp fs :=
  ⟨ho.page, ho.mem.mono hsub, ho.list, ho.counters⟩

/-- A page is still good if nothing changed but memory outside its free list. -/
theorem PageGood.congr {h h' : Heap} {c : SlobList} {bs : List Block} {pn : Nat}
    {fl : List Ext} (hp : PageGood h c bs pn fl) (hpage : h'.page pn = h.page pn)
    (hmem : ∀ x, Covers fl (x / 2) → h'.mem x = h.mem x)
    (hlist : ∀ d, pn ∈ h'.list d ↔ pn ∈ h.list d) : PageGood h' c bs pn fl := by
  have hlinked : Linked h'.mem (pageStop pn) fl := by
    refine hp.free.linked.congr hp.free.gapped.pos fun e he x h1 h2 => ?_
    refine hmem x ⟨e, he, ?_⟩
    unfold Ext.Has
    omega
  refine ⟨hp.tiled, hp.pos, ?_, ⟨hp.free.gapped, hp.free.inPage, hlinked, ?_⟩, ?_, ?_,
    hp.classed, ?_⟩
  · rw [hpage]
    exact hp.slab
  · intro hne
    have := hp.free.head hne
    simp only [Heap.view] at this ⊢
    rw [hpage]
    exact this
  · rw [hpage]
    exact hp.units
  · rw [hpage]
    exact hp.flag
  · intro d
    rw [hlist]
    exact hp.listed d

theorem PageGood.other {h h' : Heap} {c : SlobList} {bs : List Block} {q sp : Nat}
    {fl es : List Ext} (hp : PageGood h c bs q fl) (ho : OnlyPage h h' sp es)
    (hes : ∀ e ∈ es, InPage sp e) (hq : q ≠ sp) : PageGood h' c bs q fl := by
  refine hp.congr (ho.page q hq) ?_ (ho.list q hq)
  rintro x ⟨e, he, heu⟩
  refine ho.mem x ?_
  rintro ⟨f, hf, hfu⟩
  have h1 := (hp.free.inPage e he).bounds heu
  have h2 := (hes f hf).bounds hfu
  unfold pageStart pageStop at h1 h2
  omega

/-! ## The whole heap -/

/-- **The representation invariant.** -/
structure HeapOk (h : Heap) (L : Ledger) : Prop where
  heldNodup : L.held.Nodup
  occupied : ∀ pn ∈ L.held, blocksOn L.live pn ≠ []
  pages : ∀ pn ∈ L.held, ∃ c fl, PageGood h c (blocksOn L.live pn) pn fl
  housed : ∀ b ∈ L.live, b.pageNo ∈ L.held
  unlisted : ∀ pn, pn ∉ L.held → ∀ c, pn ∉ h.list c
  listNodup : ∀ c, (h.list c).Nodup

/-- The heap before the first call. -/
theorem heapOk_empty {h : Heap} (hlist : ∀ c, h.list c = []) : HeapOk h ⟨[], []⟩ := by
  refine ⟨List.nodup_nil, by simp, by simp, by simp, ?_, ?_⟩
  · intro pn _ c
    rw [hlist]
    simp
  · intro c
    rw [hlist]
    exact List.nodup_nil

/-- **One page at a time.** Page `sp` is re-established or no longer held, the
other pages and their blocks are as before. -/
theorem HeapOk.change {h h' : Heap} {L L' : Ledger} {sp : Nat} {es : List Ext}
    (hok : HeapOk h L) (ho : OnlyPage h h' sp es) (hes : ∀ e ∈ es, InPage sp e)
    (hblocks : ∀ q, q ≠ sp → blocksOn L'.live q = blocksOn L.live q)
    (hheld : ∀ q, q ≠ sp → (q ∈ L'.held ↔ q ∈ L.held)) (hnodup : L'.held.Nodup)
    (hsp : sp ∈ L'.held → blocksOn L'.live sp ≠ [] ∧
      ∃ c fl, PageGood h' c (blocksOn L'.live sp) sp fl)
    (hgone : sp ∉ L'.held → blocksOn L'.live sp = [] ∧ ∀ c, sp ∉ h'.list c)
    (hlnodup : ∀ c, (h'.list c).Nodup) : HeapOk h' L' := by
  refine ⟨hnodup, ?_, ?_, ?_, ?_, hlnodup⟩
  · intro pn hpn
    by_cases hq : pn = sp
    · subst hq
      exact (hsp hpn).1
    · rw [hblocks pn hq]
      exact hok.occupied pn ((hheld pn hq).mp hpn)
  · intro pn hpn
    by_cases hq : pn = sp
    · subst hq
      exact (hsp hpn).2
    · obtain ⟨c, fl, hfl⟩ := hok.pages pn ((hheld pn hq).mp hpn)
      rw [hblocks pn hq]
      exact ⟨c, fl, hfl.other ho hes hq⟩
  · intro b hb
    have hmem : b ∈ blocksOn L'.live b.pageNo := mem_blocksOn.mpr ⟨hb, rfl⟩
    by_cases hq : b.pageNo = sp
    · by_contra hnot
      rw [hq] at hnot hmem
      rw [(hgone hnot).1] at hmem
      exact List.not_mem_nil hmem
    · rw [hblocks _ hq] at hmem
      exact (hheld _ hq).mpr (hok.housed b (mem_blocksOn.mp hmem).1)
  · intro pn hpn c
    by_cases hq : pn = sp
    · subst hq
      exact (hgone hpn).2 c
    · rw [ho.list pn hq]
      exact hok.unlisted pn (fun hin => hpn ((hheld pn hq).mpr hin)) c

/-- The page of a live block. -/
theorem HeapOk.page_of_live {h : Heap} {L : Ledger} (hok : HeapOk h L) {b : Block}
    (hb : b ∈ L.live) :
    b ∈ blocksOn L.live b.pageNo ∧
      ∃ c fl, PageGood h c (blocksOn L.live b.pageNo) b.pageNo fl :=
  ⟨mem_blocksOn.mpr ⟨hb, rfl⟩, hok.pages _ (hok.housed b hb)⟩

/-- What is live on a page is what is live there in the whole heap. -/
theorem HeapOk.covers_blocksOn {h : Heap} {L : Ledger} (hok : HeapOk h L) {pn u : Nat}
    (hlo : pageStart pn ≤ u) (hhi : u < pageStop pn) :
    Covers (exts (blocksOn L.live pn)) u ↔ Covers (exts L.live) u := by
  rw [covers_exts, covers_exts]
  constructor
  · rintro ⟨b, hb, hbu⟩
    exact ⟨b, (mem_blocksOn.mp hb).1, hbu⟩
  · rintro ⟨b, hb, hbu⟩
    obtain ⟨hmem, c, fl, hfl⟩ := hok.page_of_live hb
    have hin := (hfl.tiled.liveIn b hmem).bounds hbu
    have hpg : b.pageNo = pn := by
      rw [← virtToPage_of_bounds hlo hhi]
      exact (virtToPage_of_bounds hin.1 hin.2).symm
    exact ⟨b, mem_blocksOn.mpr ⟨hb, hpg⟩, hbu⟩

/-- Memory outside the free lists, descriptors of pages that are not held and
counters are not part of the representation. -/
theorem HeapOk.congr {h h' : Heap} {L : Ledger} (hok : HeapOk h L)
    (hmem : ∀ x, virtToPage (x / 2) ∈ L.held → ¬ Covers (exts L.live) (x / 2) →
      h'.mem x = h.mem x)
    (hpage : ∀ pn ∈ L.held, h'.page pn = h.page pn) (hlist : h'.list = h.list) :
    HeapOk h' L := by
  refine ⟨hok.heldNodup, hok.occupied, ?_, hok.housed, ?_, ?_⟩
  · intro pn hpn
    obtain ⟨c, fl, hfl⟩ := hok.pages pn hpn
    refine ⟨c, fl, hfl.congr (hpage pn hpn) ?_ fun d => by rw [hlist]⟩
    rintro x ⟨e, he, heu⟩
    obtain ⟨hlo, hhi⟩ := (hfl.free.inPage e he).bounds heu
    refine hmem x (virtToPage_of_bounds hlo hhi ▸ hpn) fun hc => ?_
    rw [← hok.covers_blocksOn hlo hhi] at hc
    exact (hfl.tiled.complement _ hlo hhi).mp ⟨e, he, heu⟩ hc
  · rw [hlist]
    exact hok.unlisted
  · rw [hlist]
    exact hok.listNodup

section HeapOk

variable {h : Heap} {L : Ledger}

/-- A page on a list is held. -/
theorem HeapOk.of_listed (hok : HeapOk h L) {pn : Nat} {c : SlobList}
    (hpn : pn ∈ h.list c) : pn ∈ L.held := by
  by_contra hnot
  exact hok.unlisted pn hnot c hpn

/-- A live block is not at one of the pointers `ZERO_OR_NULL_PTR` stands for. -/
theorem HeapOk.block_pos (hok : HeapOk h L) {b : Block} (hb : b ∈ L.live) :
    16 < SLOB_UNIT * b.start := by
  obtain ⟨hmem, c, fl, hfl⟩ := hok.page_of_live hb
  have hlo : pageStart b.pageNo ≤ b.start := (hfl.tiled.liveIn b hmem).1
  have hpos := hfl.pos
  unfold pageStart at hlo
  unfold SLOB_UNIT
  omega

theorem HeapOk.block_size (hok : HeapOk h L) {b : Block} (hb : b ∈ L.live) :
    0 < b.size ∧ b.size ≤ PAGE_SIZE := by
  obtain ⟨hmem, c, fl, hfl⟩ := hok.page_of_live hb
  exact hfl.tiled.sized b hmem

/-- Live blocks of the whole heap are pairwise apart. -/
theorem HeapOk.block_apart (hok : HeapOk h L) {b b' : Block} (hb : b ∈ L.live)
    (hb' : b' ∈ L.live) (hne : b ≠ b') : b.ext.Apart b'.ext := by
  obtain ⟨hmem, c, fl, hfl⟩ := hok.page_of_live hb
  obtain ⟨hmem', c', fl', hfl'⟩ := hok.page_of_live hb'
  by_cases hp : b.pageNo = b'.pageNo
  · rw [hp] at hmem
    have hap : (blocksOn L.live b'.pageNo).Pairwise fun x y => x.ext.Apart y.ext :=
      List.pairwise_map.mp hfl'.tiled.apart
    have hsymm : Std.Symm fun x y : Block => x.ext.Apart y.ext := ⟨fun _ _ h => h.symm⟩
    exact hap.forall hmem hmem' hne
  · have hbin := hfl.tiled.liveIn b hmem
    have hbin' := hfl'.tiled.liveIn b' hmem'
    unfold InPage Ext.Within pageStart pageStop at hbin hbin'
    unfold Ext.Apart
    omega

end HeapOk

end OsProjects.Slob
