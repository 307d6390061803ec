import OsProjects.Slob.System

/-!
# Whole calls

`slob_alloc` and `slob_free` run without interruption, from any heap that
represents a ledger. `slobAlloc_spec` and `slobFree_spec` are what code on top
of the heap uses.
-/

namespace OsProjects.Slob

open Framework

/-- Pages after a call that may have taken one more. -/
def heldWith (held : List Nat) : Option Nat → List Nat
  | none => held
  | some pn => pn :: held

/-- `slob_alloc` gave block `b`, on a new page if `pg` names one. -/
structure Allocated (h h' : Heap) (L : Ledger) (size align : Nat) (zero : Bool)
    (pg : Option Nat) (b : Nat) : Prop where
  heap : HeapOk h' ⟨heldWith L.held pg, ⟨b, size⟩ :: L.live⟩
  aligned : Aligned align b
  frame : Frame ⟨heldWith L.held pg, L.live⟩ h h'
  zeroed : zero = true → ∀ off < size, h'.mem (SLOB_UNIT * b + off) = 0

/-- The end of `slob_alloc` after either section. -/
theorem Allocated.finish {h h' : Heap} {L : Ledger} {size align : Nat} (zero new : Bool)
    {pg : Option Nat} {b : Nat} (hok : HeapOk h' ⟨heldWith L.held pg, ⟨b, size⟩ :: L.live⟩)
    (hal : Aligned align b) (hf : Frame ⟨heldWith L.held pg, L.live⟩ h h') :
    Allocated h (slobAllocFinish h' b size zero new) L size align zero pg b := by
  have hle := (hok.block_size List.mem_cons_self).2
  have hpage := slobAllocFinish_page h' b size zero new
  refine ⟨?_, hal, ⟨?_, ?_⟩, ?_⟩
  · refine hok.congr (fun x _ hx => ?_) (fun q _ => by rw [hpage])
      (slobAllocFinish_list h' b size zero new)
    refine slobAllocFinish_frame h' (b := ⟨b, size⟩) hle zero new fun hin => hx ?_
    exact covers_exts.mpr ⟨_, List.mem_cons_self, hin⟩
  · intro x hx
    by_cases hin : (⟨b, size⟩ : Block).ext.Has (x / 2)
    · -- a byte of the block itself, which lies on its page and in no live block
      obtain ⟨hmem, c, fl, hfl⟩ := hok.page_of_live List.mem_cons_self
      obtain ⟨hlo, hhi⟩ := (hfl.tiled.liveIn _ hmem).bounds hin
      rw [virtToPage_of_bounds hlo hhi]
      refine ⟨hok.housed _ List.mem_cons_self, fun hc => ?_⟩
      obtain ⟨b', hb', hbu⟩ := covers_exts.mp hc
      refine (hok.block_apart List.mem_cons_self (List.mem_cons_of_mem _ hb') ?_).not_has
        hin hbu
      rintro rfl
      exact hok.not_mem_of_cons hb'
    · rw [slobAllocFinish_frame h' (b := ⟨b, size⟩) hle zero new hin] at hx
      exact hf.mem x hx
  · intro q hq
    rw [hpage]
    exact hf.page q hq
  · rintro rfl off hoff
    exact slobAllocFinish_zeroed h' b size new (Nat.le_add_right _ _)
      (Nat.add_lt_add_left hoff _)

/-- `slob_alloc` after a search that has found nothing, with a page from the page
allocator. -/
theorem slobAlloc_newPage {h h1 : Heap} {L : Ledger} {cfg : Config} {size align pn : Nat}
    {node : Int} {spAlt : Option Nat} (zero : Bool) (hok : HeapOk h L) (hsize : SizeOk size)
    (halign : AlignOk align)
    (hrun : slobAllocSearch cfg h size align node spAlt = some (none, h1)) (hs : SameHeap h h1)
    (hpos : 0 < pn) (hheld : pn ∉ L.held) :
    ∃ h', slobAlloc cfg h size zero align node spAlt (some pn) = some (some (pageStart pn), h') ∧
      Allocated h h' L size align zero (some pn) (pageStart pn) ∧ Adds h h' size 1 PAGE_SIZE := by
  have hok1 : HeapOk (markSlab h1 pn) L := by
    refine (hok.same hs).congr (fun x _ _ => rfl) (fun q hq => ?_) rfl
    exact Heap.setPage_page_ne _ _ _ _ (ne_of_mem_of_not_mem hq hheld)
  have hslab : ((markSlab h1 pn).page pn).slab = true := by
    rw [markSlab, Heap.setPage_page]
  obtain ⟨h2, hrun2, hheap, hf, hs2⟩ := slobAllocInsert_spec hok1 hpos hheld hslab hsize halign
  refine ⟨_, ?_, Allocated.finish zero true hheap (halign.dvd pn)
    ⟨fun x hx => hf.mem x ?_, fun q hq => ?_⟩, ?_⟩
  · rw [slobAlloc, hrun]
    dsimp only
    rw [SLOB_UNITS_PAGE_SIZE, ← pageStart, hrun2]
  · rw [show (markSlab h1 pn).mem = h1.mem from rfl, hs.mem]
    exact hx
  · rw [hf.page q hq, markSlab, Heap.setPage_page_ne, hs.page]
    exact fun heq => hq (heq ▸ List.mem_cons_self)
  · have hmark : SameCounters h1 (markSlab h1 pn) := ⟨rfl, rfl, rfl⟩
    simpa using ((hs.counters.trans hmark).trans hs2).adds.trans
      (adds_finish h2 _ size zero true)

/-- **`slob_alloc` in one go.** It fails only if the page allocator does, and
then changes nothing. -/
theorem slobAlloc_spec {h : Heap} {L : Ledger} (hok : HeapOk h L) (cfg : Config)
    {size align : Nat} (zero : Bool) (node : Int) {pg : Option Nat} (hsize : SizeOk size)
    (halign : AlignOk align) (hpg : ∀ pn, pg = some pn → 0 < pn ∧ pn ∉ L.held) :
    (∃ h', slobAlloc cfg h size zero align node none pg = some (none, h') ∧ pg = none ∧
      SameHeap h h') ∨
    (∃ pg' b h', slobAlloc cfg h size zero align node none pg = some (some b, h') ∧
      (pg' = none ∨ pg' = pg) ∧ Allocated h h' L size align zero pg' b ∧
      Adds h h' size pg'.isSome.toNat (PAGE_SIZE * pg'.isSome.toNat)) := by
  rcases slobAllocSearch_spec hok cfg node hsize halign with
    ⟨h1, hrun, hs⟩ | ⟨b, h1, hrun, hheap, hf, hal, hs⟩
  · cases pg with
    | none => exact Or.inl ⟨h1, by rw [slobAlloc, hrun], rfl, hs⟩
    | some pn =>
        obtain ⟨hpos, hheld⟩ := hpg pn rfl
        obtain ⟨h', hrun', halloc, hadds⟩ :=
          slobAlloc_newPage zero hok hsize halign hrun hs hpos hheld
        exact Or.inr ⟨some pn, pageStart pn, h', hrun', Or.inr rfl, halloc, by simpa using hadds⟩
  · refine Or.inr ⟨none, b, _, by rw [slobAlloc, hrun], Or.inl rfl,
      Allocated.finish zero false hheap hal hf, ?_⟩
    simpa using hs.adds.trans (adds_finish h1 b size zero false)

/-- Pages after a call that may have given one back. -/
def heldWithout (held : List Nat) : Option Nat → List Nat
  | none => held
  | some pn => held.erase pn

/-- **`slob_free` in one go**, on a live block with the size it was allocated
with. -/
theorem slobFree_spec {h : Heap} {L : Ledger} (hok : HeapOk h L) {b : Block}
    (hb : b ∈ L.live) :
    ∃ h' pg, slobFree h (SLOB_UNIT * b.start) b.size = some h' ∧
      HeapOk h' ⟨heldWithout L.held pg, L.live.erase b⟩ ∧
      WritesFree ⟨L.held, L.live.erase b⟩ h.mem h'.mem ∧
      (pg = none ∨ pg = some b.pageNo ∧ (h'.page b.pageNo).slab = false) ∧
      (∀ q, q ∉ L.held → h'.page q = h.page q) ∧
      Adds h h' (-b.size) (-pg.isSome.toNat) 0 := by
  have hok0 : HeapOk (debitUsed h b.size) L :=
    hok.congr (fun x _ _ => rfl) (fun q _ => rfl) rfl
  have hdiv : SLOB_UNIT * b.start / SLOB_UNIT = b.start := by
    unfold SLOB_UNIT
    omega
  unfold slobFree
  rw [if_neg (Nat.not_le.mpr (hok.block_pos hb)),
    if_neg (Nat.pos_iff_ne_zero.mp (hok.block_size hb).1), hdiv]
  rcases slobFreeSection_spec hok0 hb with
    ⟨h1, hrun, hheap, hmem, hpage, hs⟩ | ⟨h1, hrun, hheap, hf, hs⟩
  · rw [hrun]
    have hheld := hok.housed b hb
    have hgone : b.pageNo ∉ L.held.erase b.pageNo := by
      rw [hok.heldNodup.mem_erase_iff]
      simp
    have hother : ∀ q, q ≠ b.pageNo → (slobFreeRelease h1 b.pageNo).page q = h.page q :=
      fun q hq => (Heap.setPage_page_ne _ _ _ _ hq).trans (hpage q hq)
    refine ⟨_, some b.pageNo, rfl, ?_, ?_, Or.inr ⟨rfl, ?_⟩, ?_, ?_⟩
    · refine hheap.congr (fun x _ _ => rfl) (fun q hq => ?_) rfl
      exact Heap.setPage_page_ne _ _ _ _ (ne_of_mem_of_not_mem hq hgone)
    · intro x hx
      exact absurd (congrFun hmem x) hx
    · rw [slobFreeRelease, Heap.setPage_page]
    · intro q hq
      exact hother q (ne_of_mem_of_not_mem hheld hq).symm
    · simpa using ((adds_debitUsed h b.size).trans hs.adds).trans (adds_release h1 b.pageNo)
  · rw [hrun]
    refine ⟨h1, none, rfl, hheap, hf.mem, Or.inl rfl, hf.page, ?_⟩
    simpa using (adds_debitUsed h b.size).trans hs.adds

end OsProjects.Slob
