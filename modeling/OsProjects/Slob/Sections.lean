import Mathlib.Data.List.MinMax
import OsProjects.Slob.Invariant

/-!
# The critical sections keep the invariant

One theorem per critical section of `slob_alloc` and `slob_free`: from a heap
that represents a ledger the section runs to its end (no `BUG_ON`, no endless
walk), leaves a heap that represents the ledger with the block added or taken
out, and writes no memory but that of free units (`WritesFree`).

- `slobAllocSearch_spec` — the best-fit page is searched and carved;
- `slobAllocInsert_spec` — a page obtained meanwhile is listed and carved;
- `slobFreeSection_spec` — the block goes back, or its whole page does.
-/

namespace OsProjects.Slob

open Framework

/-! ## What the callers must respect -/

/-- Alignments callers may ask for: none, or a power of two up to `PAGE_SIZE`. -/
def AlignOk (align : Nat) : Prop := align = 0 ∨ ∃ k ≤ 12, align = 2 ^ k

/-- Sizes `slob_alloc` is called with. -/
def SizeOk (size : Nat) : Prop := 0 < size ∧ size ≤ PAGE_SIZE

instance (size : Nat) : Decidable (SizeOk size) := inferInstanceAs (Decidable (_ ∧ _))

theorem AlignOk.dvd {align : Nat} (h : AlignOk align) (pn : Nat) :
    align = 0 ∨ align ∣ SLOB_UNIT * pageStart pn := by
  refine h.imp_right ?_
  rintro ⟨k, hk, rfl⟩
  have h1 : 2 ^ k ∣ 2 ^ 12 := Nat.pow_dvd_pow 2 hk
  have h2 : SLOB_UNIT * pageStart pn = 2 ^ 12 * pn := by
    unfold SLOB_UNIT pageStart
    omega
  rw [h2]
  exact h1.mul_right pn

theorem AlignOk.even {align : Nat} (h : AlignOk align) (h0 : align ≠ 0) :
    align = 1 ∨ 2 ∣ align := by
  obtain ⟨k, -, rfl⟩ := h.resolve_left h0
  cases k with
  | zero => exact Or.inl rfl
  | succ k => exact Or.inr (Dvd.intro_left (2 ^ k) rfl)

/-- Only memory of free units of held pages differs. -/
def WritesFree (L : Ledger) (m m' : Mem) : Prop :=
  ∀ x, m' x ≠ m x → virtToPage (x / 2) ∈ L.held ∧ ¬ Covers (exts L.live) (x / 2)

theorem WritesFree.block {L : Ledger} {m m' : Mem} (h : WritesFree L m m') {b : Block}
    (hb : b ∈ L.live) {x : Nat} (hx : b.ext.Has (x / 2)) : m' x = m x := by
  by_contra hne
  exact (h x hne).2 (covers_exts.mpr ⟨b, hb, hx⟩)

theorem virtToPage_pageStart (pn : Nat) : virtToPage (pageStart pn) = pn :=
  virtToPage_of_bounds (Nat.le_refl _) (by rw [pageStop_eq]; omega)

/-- **What is left alone**: memory that is not free, and descriptors of pages
that are not held. -/
structure Frame (L : Ledger) (h h' : Heap) : Prop where
  mem : WritesFree L h.mem h'.mem
  page : ∀ q, q ∉ L.held → h'.page q = h.page q

/-- Sections that write only where one page has something free. -/
theorem OnlyPage.frame {h h' : Heap} {L : Ledger} {pn : Nat} {es : List Ext}
    (ho : OnlyPage h h' pn es) (hes : ∀ e ∈ es, InPage pn e) (hpn : pn ∈ L.held)
    (hfree : ∀ u, Covers es u → ¬ Covers (exts L.live) u) : Frame L h h' := by
  refine ⟨fun x hx => ?_, fun q hq => ho.page q ?_⟩
  · have hc : Covers es (x / 2) := by
      by_contra hnot
      exact hx (ho.mem x hnot)
    obtain ⟨e, he, heu⟩ := hc
    obtain ⟨hlo, hhi⟩ := (hes e he).bounds heu
    rw [virtToPage_of_bounds hlo hhi]
    exact ⟨hpn, hfree _ ⟨e, he, heu⟩⟩
  · rintro rfl
    exact hq hpn

/-! ## `slob_page_alloc` on a good page -/

section PageAlloc

variable {h : Heap} {c : SlobList} {bs : List Block} {pn : Nat} {fl : List Ext}

/-- Carving `a .. a+n` out of a free block, seen on the page descriptor, its
free list and its list. -/
theorem PageGood.carve {pre post : List Ext} {e : Ext} {v : View} {a size : Nat}
    (hp : PageGood h c bs pn (pre ++ e :: post)) (hsize : SizeOk size)
    (hclass : slobListOf size = c) (hnodup : ∀ d, (h.list d).Nodup)
    (hlo : e.start ≤ a) (hhi : a + SLOB_UNITS size ≤ e.stop)
    (hv : FreeList v pn (pre ++ (cut e a (SLOB_UNITS size) ++ post))) :
    PageGood (debitUnits (h.setView pn v) pn (SLOB_UNITS size)) c (⟨a, size⟩ :: bs) pn
      (pre ++ (cut e a (SLOB_UNITS size) ++ post)) := by
  have ht := hp.tiled.carve (b := ⟨a, size⟩) hsize hlo hhi hv.inPage
  have htotal : total (pre ++ (cut e a (SLOB_UNITS size) ++ post)) + SLOB_UNITS size =
      total (pre ++ e :: post) := by
    have := total_cut hlo hhi
    simp only [total_append, total_cons]
    omega
  -- the descriptor counts zero exactly when nothing is left on the list
  have hzero : (h.page pn).units - (SLOB_UNITS size : Nat) = 0 ↔
      pre ++ (cut e a (SLOB_UNITS size) ++ post) = [] := by
    rw [← hv.gapped.total_eq_zero, hp.units]
    omega
  refine ⟨ht, hp.pos, ?_, ?_, ?_, ?_, ?_, ?_⟩
  · rw [debitUnits_page, Heap.setView_page]
    exact hp.slab
  · rw [debitUnits_view, Heap.setView_view]
    exact hv
  · rw [debitUnits_page, Heap.setView_page]
    simp only [hp.units]
    omega
  · rw [debitUnits_page, Heap.setView_page]
    simp only [hzero]
    have hflag : (h.page pn).slobFree = true := hp.flag.mpr (by simp)
    by_cases hnil : pre ++ (cut e a (SLOB_UNITS size) ++ post) = []
    · simp only [hnil, if_true, ne_eq, not_true_eq_false, Bool.false_eq_true]
    · simp only [hnil, if_false, hflag, ne_eq, not_false_eq_true]
  · exact List.forall_mem_cons.mpr ⟨hclass, hp.classed⟩
  · intro d
    rw [debitUnits_list, Heap.setView_page, Heap.setView_list]
    simp only [hzero]
    have hold := hp.listed d
    by_cases hnil : pre ++ (cut e a (SLOB_UNITS size) ++ post) = []
    · rw [if_pos hnil, (hnodup d).mem_erase_iff]
      simp [hnil]
    · rw [if_neg hnil, hold]
      simp [hnil]

theorem onlyPage_debit {v : View} {n : Nat} (hmem : SameOutside fl h.mem v.mem) :
    OnlyPage h (debitUnits (h.setView pn v) pn n) pn fl := by
  refine ⟨fun q hq => ?_, ?_, fun q hq d => ?_, ?_⟩
  · rw [debitUnits_page_ne _ _ _ _ hq, Heap.setView_page_ne _ _ _ _ hq]
  · rw [debitUnits_mem]
    exact hmem
  · rw [debitUnits_list, Heap.setView_list]
    split
    · exact List.mem_erase_of_ne hq
    · rfl
  · have hview : SameCounters h (h.setView pn v) := ⟨rfl, rfl, rfl⟩
    exact hview.trans (debitUnits_counters _ pn n)

theorem nodup_debit {v : View} {n : Nat} (hnodup : ∀ d, (h.list d).Nodup) (d : SlobList) :
    ((debitUnits (h.setView pn v) pn n).list d).Nodup := by
  rw [debitUnits_list, Heap.setView_list]
  split
  · exact (hnodup d).erase pn
  · exact hnodup d

/-- `slob_page_alloc` on a page with something free. -/
theorem slobPageAlloc_spec {size : Nat} (align : Nat) (hp : PageGood h c bs pn fl)
    (hne : fl ≠ []) (hsize : SizeOk size) (hclass : slobListOf size = c)
    (hnodup : ∀ d, (h.list d).Nodup) :
    (∃ e ∈ fl, ∃ h' fl', Fits align (SLOB_UNITS size) e ∧
      slobPageAlloc h pn size align = some (some (alignUp align e.start), h') ∧
      PageGood h' c (⟨alignUp align e.start, size⟩ :: bs) pn fl' ∧
      OnlyPage h h' pn fl ∧ ∀ d, (h'.list d).Nodup) ∨
    ((∀ e ∈ fl, ¬ Fits align (SLOB_UNITS size) e) ∧
      slobPageAlloc h pn size align = some (none, h)) := by
  have hunits : 0 < SLOB_UNITS size := SLOB_UNITS_pos hsize.1 hsize.2
  rcases pageAlloc_spec align hp.free hne hunits with
    ⟨pre, e, post, v, rfl, -, hfit, hrun, hfl', hmem⟩ | ⟨hno, hrun⟩
  · have hgood := hp.carve hsize hclass hnodup (le_alignUp align e.start) hfit hfl'
    refine Or.inl ⟨e, by simp, _, _, hfit, ?_, hgood, onlyPage_debit hmem,
      nodup_debit hnodup⟩
    rw [slobPageAlloc, hrun]
  · refine Or.inr ⟨hno, ?_⟩
    rw [slobPageAlloc, hrun]

end PageAlloc

/-! ## The search section -/

section Scan

variable (cfg : Config) (h : Heap) (size : Nat) (node : Int)

/-- A page of the node asked for that has enough units in total. -/
def roomy (sp : Nat) : Bool :=
  !cfg.skips node sp && decide (SLOB_UNITS size ≤ toUnsigned (h.page sp).units)

/-- **The scan is a minimum**, by induction over the list with `sp_alt` as the
minimum so far. -/
theorem scanPages_eq (sps : List Nat) (alt : Option Nat) :
    scanPages cfg h size node sps alt =
      (alt.toList ++ sps.filter (roomy cfg h size node)).argmin fun sp => (h.page sp).units := by
  induction sps generalizing alt with
  | nil => cases alt <;> rfl
  | cons sp rest ih =>
      rw [scanPages]
      by_cases hskip : cfg.skips node sp = true
      · have hnot : roomy cfg h size node sp = false := by simp [roomy, hskip]
        rw [if_pos hskip, ih, List.filter_cons_of_neg (by simp [hnot])]
      · rw [if_neg hskip]
        by_cases hunits : toUnsigned (h.page sp).units < SLOB_UNITS size
        · have hnot : roomy cfg h size node sp = false := by simp [roomy, hunits]
          rw [if_pos hunits, ih, List.filter_cons_of_neg (by simp [hnot])]
        · have hroomy : roomy cfg h size node sp = true := by
            simp [roomy, hskip, not_lt.mp hunits]
          rw [if_neg hunits, List.filter_cons_of_pos hroomy]
          dsimp only
          cases alt with
          | none =>
              rw [Option.getD_none, if_neg (lt_irrefl _), ih]
              rfl
          | some a =>
              rw [Option.getD_some]
              split
              · rename_i hlt
                rw [ih]
                simp [List.argmin, List.argAux, hlt]
              · rename_i hlt
                rw [ih]
                simp [List.argmin, List.argAux, hlt]

/-- It picks a page of the list, or what it started with. -/
theorem scanPages_mem (sps : List Nat) (alt : Option Nat) {sp : Nat}
    (hrun : scanPages cfg h size node sps alt = some sp) : sp ∈ sps ∨ alt = some sp := by
  rw [scanPages_eq] at hrun
  rcases List.mem_append.mp (List.argmin_mem hrun) with halt | hin
  · exact Or.inr (Option.mem_toList.mp halt)
  · exact Or.inl (List.mem_of_mem_filter hin)

end Scan

/-- Everything but the counter `free` is the same. -/
structure SameHeap (h h' : Heap) : Prop where
  mem : h'.mem = h.mem
  page : h'.page = h.page
  list : h'.list = h.list
  counters : SameCounters h h'

theorem HeapOk.same {h h' : Heap} {L : Ledger} (hok : HeapOk h L) (hs : SameHeap h h') :
    HeapOk h' L :=
  hok.congr (fun x _ _ => by rw [hs.mem]) (fun pn _ => by rw [hs.page]) hs.list

/-- Carving a block out of a held page keeps the heap in order. -/
theorem HeapOk.add {h h' : Heap} {L : Ledger} {sp b size : Nat} {c c' : SlobList}
    {fl fl' : List Ext} (hok : HeapOk h L) (hsp : sp ∈ L.held)
    (hold : PageGood h c (blocksOn L.live sp) sp fl)
    (hnew : PageGood h' c' (⟨b, size⟩ :: blocksOn L.live sp) sp fl')
    (ho : OnlyPage h h' sp fl) (hnodup : ∀ d, (h'.list d).Nodup) :
    HeapOk h' ⟨L.held, ⟨b, size⟩ :: L.live⟩ ∧ Frame L h h' := by
  have hbpage : (⟨b, size⟩ : Block).pageNo = sp :=
    (hnew.tiled.liveIn _ List.mem_cons_self).virtToPage
      (hnew.tiled.ext_pos List.mem_cons_self)
  refine ⟨hok.change ho hold.free.inPage ?_ (fun q _ => Iff.rfl) hok.heldNodup ?_ ?_ hnodup,
    ho.frame hold.free.inPage hsp ?_⟩
  · intro q hq
    exact blocksOn_cons_ne fun heq => hq (heq.symm.trans hbpage)
  · intro _
    rw [blocksOn_cons_same hbpage]
    exact ⟨List.cons_ne_nil _ _, c', fl', hnew⟩
  · intro hnot
    exact absurd hsp hnot
  · rintro u ⟨e, he, heu⟩
    obtain ⟨hlo, hhi⟩ := (hold.free.inPage e he).bounds heu
    rw [← hok.covers_blocksOn hlo hhi]
    exact (hold.tiled.complement u hlo hhi).mp ⟨e, he, heu⟩

/-- What `align` promises about an address. -/
def Aligned (align b : Nat) : Prop := align = 0 ∨ align ∣ SLOB_UNIT * b

theorem AlignOk.aligned {align : Nat} (h : AlignOk align) (cur : Nat) :
    Aligned align (alignUp align cur) := by
  by_cases h0 : align = 0
  · exact Or.inl h0
  · exact Or.inr (dvd_alignUp h0 (h.even h0) cur)

/-- **The search section**, with `sp_alt` starting as `NULL`. -/
theorem slobAllocSearch_spec {h : Heap} {L : Ledger} (hok : HeapOk h L) (cfg : Config)
    {size align : Nat} (node : Int) (hsize : SizeOk size) (halign : AlignOk align) :
    (∃ h', slobAllocSearch cfg h size align node none = some (none, h') ∧ SameHeap h h') ∨
    (∃ b h', slobAllocSearch cfg h size align node none = some (some b, h') ∧
      HeapOk h' ⟨L.held, ⟨b, size⟩ :: L.live⟩ ∧ Frame L h h' ∧ Aligned align b ∧
      SameCounters h h') := by
  have hok0 : HeapOk { h with free := 0 } L := hok.same ⟨rfl, rfl, rfl, rfl, rfl, rfl⟩
  unfold slobAllocSearch
  dsimp only
  cases hscan : scanPages cfg { h with free := 0 } size node
      (h.list (slobListOf size)) none with
  | none => exact Or.inl ⟨_, rfl, rfl, rfl, rfl, rfl, rfl, rfl⟩
  | some sp =>
      have hin : sp ∈ h.list (slobListOf size) :=
        (scanPages_mem cfg _ size node _ none hscan).resolve_right (by simp)
      have hheld := hok.of_listed hin
      obtain ⟨c, fl, hp⟩ := hok0.pages sp hheld
      obtain ⟨hne, hclass⟩ := (hp.listed (slobListOf size)).mp hin
      dsimp only
      rcases slobPageAlloc_spec align hp hne hsize hclass hok0.listNodup with
        ⟨e, -, h', fl', -, hrun, hgood, ho, hnodup⟩ | ⟨-, hrun⟩
      · obtain ⟨hok', hw⟩ := hok0.add hheld hp hgood ho hnodup
        rw [hrun]
        exact Or.inr ⟨_, _, rfl, hok'.same ⟨rfl, rfl, rfl, rfl, rfl, rfl⟩,
          ⟨hw.mem, hw.page⟩, halign.aligned _, ho.counters.1, ho.counters.2, ho.counters.3⟩
      · rw [hrun]
        exact Or.inl ⟨_, rfl, rfl, rfl, rfl, rfl, rfl, rfl⟩

/-! ## The insertion section -/

/-- Page `sp` is put on list `c` with the single free block `e` on it; `m` is
memory with that block written. -/
def listWith (h : Heap) (sp : Nat) (e : Ext) (m : Mem) (c : SlobList) : Heap :=
  let h := h.setPage sp { h.page sp with units := e.len, freelist := e.start }
  let h := { h with mem := m }
  h.setSlobPageFree sp c

theorem Slot.gapped {pn : Nat} {e : Ext} {next : Nat} (hs : Slot pn e next) :
    Gapped [e] :=
  gapped_cons.mpr ⟨hs.pos, by simp, Gapped.nil⟩

section ListWith

variable {h : Heap} {pn : Nat} {e : Ext} {c : SlobList}

theorem listWith_counters (m : Mem) : SameCounters h (listWith h pn e m c) :=
  ⟨rfl, rfl, rfl⟩

theorem onlyPage_listWith (hs : Slot pn e (pageStop pn)) :
    OnlyPage h (listWith h pn e (setSlob h.mem e.start e.len (pageStop pn)) c) pn [e] := by
  refine ⟨fun q hq => ?_, ?_, fun q hq d => ?_, listWith_counters _⟩
  · rw [listWith, Heap.setSlobPageFree_page_ne _ _ _ _ hq]
    exact Heap.setPage_page_ne _ _ _ _ hq
  · refine sameOutside_setSlob hs fun u hu => ?_
    simp [hu]
  · rw [listWith, Heap.mem_setSlobPageFree]
    simp [hq]

/-- A page that was on no list becomes a good one with the single free block
`e`, if that is what its live blocks leave free. -/
theorem pageGood_listWith {bs : List Block} (hs : Slot pn e (pageStop pn)) (hpos : 0 < pn)
    (hslab : (h.page pn).slab = true) (hoff : ∀ d, pn ∉ h.list d)
    (ht : Tiled pn bs [e]) (hclass : ∀ b ∈ bs, slobListOf b.size = c) :
    PageGood (listWith h pn e (setSlob h.mem e.start e.len (pageStop pn)) c) c bs pn
      [e] := by
  have hpage : ∀ m, (listWith h pn e m c).page pn =
      { h.page pn with units := e.len, freelist := e.start, slobFree := true } := by
    intro m
    rw [listWith, Heap.setSlobPageFree_page]
    simp
  refine ⟨ht, hpos, ?_, ⟨ht.gapped, ht.freeIn, ?_, ?_⟩, ?_, ?_, hclass, ?_⟩
  · rw [hpage]
    exact hslab
  · exact ⟨encoded_setSlob _ hs, trivial⟩
  · intro _
    simp only [Heap.view, hpage]
    rfl
  · rw [hpage]
    simp
  · rw [hpage]
    simp
  · intro d
    rw [listWith, Heap.mem_setSlobPageFree]
    simp [hoff d]

theorem nodup_listWith (hoff : ∀ d, pn ∉ h.list d) (hnodup : ∀ d, (h.list d).Nodup)
    (m : Mem) (d : SlobList) : ((listWith h pn e m c).list d).Nodup :=
  Heap.nodup_setSlobPageFree _ _ _ _ hoff hnodup

end ListWith

theorem blocksOn_eq_nil {h : Heap} {L : Ledger} (hok : HeapOk h L) {pn : Nat}
    (hpn : pn ∉ L.held) : blocksOn L.live pn = [] := by
  refine List.eq_nil_iff_forall_not_mem.mpr fun b hb => hpn ?_
  obtain ⟨hlive, rfl⟩ := mem_blocksOn.mp hb
  exact hok.housed b hlive

theorem slobAllocInsert_eq {h h' : Heap} {pn size align b : Nat}
    (hrun : slobPageAlloc (listWith h pn ⟨pageStart pn, 2048⟩
      (setSlob h.mem (pageStart pn) (2048 : Nat) (pageStop pn)) (slobListOf size))
      pn size align = some (some b, h')) :
    slobAllocInsert h (pageStart pn) size align = some (b, h') := by
  rw [slobAllocInsert, virtToPage_pageStart, SLOB_UNITS_PAGE_SIZE, ← pageStop_eq]
  -- `listWith` is the heap the section passes on
  generalize hr : slobPageAlloc _ pn size align = r
  rw [hr.symm.trans hrun]

/-- **The insertion section** on a page SLOB does not hold yet: the block is
the front of the page, whatever alignment was asked for. -/
theorem slobAllocInsert_spec {h : Heap} {L : Ledger} {pn size align : Nat}
    (hok : HeapOk h L) (hpos : 0 < pn) (hpn : pn ∉ L.held)
    (hslab : (h.page pn).slab = true) (hsize : SizeOk size) (halign : AlignOk align) :
    ∃ h', slobAllocInsert h (pageStart pn) size align = some (pageStart pn, h') ∧
      HeapOk h' ⟨pn :: L.held, ⟨pageStart pn, size⟩ :: L.live⟩ ∧
      Frame ⟨pn :: L.held, L.live⟩ h h' ∧ SameCounters h h' := by
  have hstop := pageStop_eq pn
  have hs : Slot pn ⟨pageStart pn, 2048⟩ (pageStop pn) :=
    ⟨⟨Nat.le_refl _, Nat.le_of_eq hstop.symm⟩, Nat.succ_pos _, by omega, Nat.le_refl _⟩
  have hoff : ∀ d, pn ∉ h.list d := hok.unlisted pn hpn
  have ho := onlyPage_listWith (h := h) (c := slobListOf size) hs
  have hpage : PageGood (listWith h pn ⟨pageStart pn, 2048⟩
      (setSlob h.mem (pageStart pn) (2048 : Nat) (pageStop pn)) (slobListOf size))
      (slobListOf size) [] pn [⟨pageStart pn, 2048⟩] := by
    refine pageGood_listWith hs hpos hslab hoff ⟨hs.gapped, ?_, ?_, by simp, by simp,
      List.Pairwise.nil⟩ (by simp)
    · exact List.forall_mem_singleton.mpr hs.inPage
    · intro u hlo hhi
      simp only [exts_nil, covers_nil, not_false_eq_true, iff_true]
      exact ⟨_, List.mem_singleton.mpr rfl, hlo, by rw [Ext.stop, ← hstop]; exact hhi⟩
  have hstart : alignUp align (pageStart pn) = pageStart pn := alignUp_of_dvd (halign.dvd pn)
  rcases slobPageAlloc_spec align hpage (by simp) hsize rfl
      (nodup_listWith hoff hok.listNodup _) with
    ⟨e, he, h', fl', -, hrun, hgood, ho', hnodup⟩ | ⟨hno, -⟩
  · rw [List.mem_singleton.mp he, hstart] at hrun hgood
    have honly := ho.trans ho'
    have hblock : (⟨pageStart pn, size⟩ : Block).pageNo = pn := virtToPage_pageStart pn
    refine ⟨h', slobAllocInsert_eq hrun, ?_, ?_, honly.counters⟩
    · refine hok.change honly hpage.free.inPage ?_ ?_
        (List.nodup_cons.mpr ⟨hpn, hok.heldNodup⟩) ?_ ?_ hnodup
      · intro q hq
        exact blocksOn_cons_ne fun heq => hq (heq.symm.trans hblock)
      · intro q hq
        simp [hq]
      · intro _
        rw [blocksOn_cons_same hblock, blocksOn_eq_nil hok hpn]
        exact ⟨List.cons_ne_nil _ _, _, _, hgood⟩
      · intro hnot
        exact absurd List.mem_cons_self hnot
    · refine honly.frame hpage.free.inPage List.mem_cons_self ?_
      rintro u ⟨e, he, heu⟩
      obtain ⟨hlo, hhi⟩ := (hpage.free.inPage e he).bounds heu
      rw [← hok.covers_blocksOn hlo hhi, blocksOn_eq_nil hok hpn]
      simp
  · -- a whole page has room for any request
    refine absurd ?_ (hno _ (List.mem_singleton.mpr rfl))
    have := SLOB_UNITS_le hsize.2
    rw [Fits, hstart, Ext.stop]
    simp only
    omega

/-! ## After the sections of `slob_alloc` -/

section Finish

variable (h : Heap) (b size : Nat) (zero new : Bool)

theorem slobAllocFinish_page : (slobAllocFinish h b size zero new).page = h.page := by
  unfold slobAllocFinish
  cases zero <;> cases new <;> rfl

theorem slobAllocFinish_list : (slobAllocFinish h b size zero new).list = h.list := by
  unfold slobAllocFinish
  cases zero <;> cases new <;> rfl

theorem slobAllocFinish_mem : (slobAllocFinish h b size zero new).mem =
    if zero then fillBytes h.mem (SLOB_UNIT * b) size 0 else h.mem := by
  unfold slobAllocFinish
  cases zero <;> cases new <;> rfl

/-- The bytes of the block are zero if that was asked for. -/
theorem slobAllocFinish_zeroed {x : Nat} (hlo : SLOB_UNIT * b ≤ x)
    (hhi : x < SLOB_UNIT * b + size) : (slobAllocFinish h b size true new).mem x = 0 := by
  rw [slobAllocFinish_mem, if_pos rfl, fillBytes, if_pos ⟨hlo, hhi⟩]

end Finish

/-- The bytes of a block lie in its units. -/
theorem Block.has_byte {b : Block} (hle : b.size ≤ PAGE_SIZE) {x : Nat}
    (hlo : SLOB_UNIT * b.start ≤ x) (hhi : x < SLOB_UNIT * b.start + b.size) :
    b.ext.Has (x / 2) := by
  have := SLOB_UNITS_eq hle
  unfold SLOB_UNIT at hlo hhi
  simp only [Ext.Has, Ext.stop, Block.ext]
  omega

/-- Only bytes of the block are written. -/
theorem slobAllocFinish_frame (h : Heap) {b : Block} (hle : b.size ≤ PAGE_SIZE)
    (zero new : Bool) {x : Nat} (hx : ¬ b.ext.Has (x / 2)) :
    (slobAllocFinish h b.start b.size zero new).mem x = h.mem x := by
  rw [slobAllocFinish_mem]
  split
  · refine if_neg fun hin => hx ?_
    exact Block.has_byte hle hin.1 hin.2
  · rfl

/-! ## The free section -/

section FreeSection

variable {h : Heap} {L : Ledger} {b : Block} {c : SlobList} {fl : List Ext}

theorem erase_of_page (hok : HeapOk h L) (hb : b ∈ L.live) {h' : Heap} {es : List Ext}
    {c' : SlobList} {fl' : List Ext} (ho : OnlyPage h h' b.pageNo es)
    (hes : ∀ e ∈ es, InPage b.pageNo e)
    (hfree : ∀ u, Covers es u → Covers fl' u)
    (hne : (blocksOn L.live b.pageNo).erase b ≠ [])
    (hnew : PageGood h' c' ((blocksOn L.live b.pageNo).erase b) b.pageNo fl')
    (hnodup : ∀ d, (h'.list d).Nodup) :
    HeapOk h' ⟨L.held, L.live.erase b⟩ ∧ Frame ⟨L.held, L.live.erase b⟩ h h' ∧
      SameCounters h h' := by
  have hsp := hok.housed b hb
  have hok' : HeapOk h' ⟨L.held, L.live.erase b⟩ := by
    refine hok.change ho hes ?_ (fun q _ => Iff.rfl) hok.heldNodup ?_ ?_ hnodup
    · intro q hq
      exact blocksOn_erase_ne hq.symm
    · intro _
      rw [blocksOn_erase_same]
      exact ⟨hne, c', fl', hnew⟩
    · intro hnot
      exact absurd hsp hnot
  refine ⟨hok', ho.frame hes hsp ?_, ho.counters⟩
  intro u hu
  obtain ⟨e, he, heu⟩ := hfree u hu
  obtain ⟨hlo, hhi⟩ := (hnew.free.inPage e he).bounds heu
  rw [← hok'.covers_blocksOn hlo hhi, blocksOn_erase_same]
  exact (hnew.tiled.complement u hlo hhi).mp ⟨e, he, heu⟩

/-- The page is given up: nothing else is live on it. -/
theorem free_last (hok : HeapOk h L)
    (hp : PageGood h c (blocksOn L.live b.pageNo) b.pageNo fl)
    (hlast : (blocksOn L.live b.pageNo).erase b = []) :
    let h' := if (h.page b.pageNo).slobFree then h.clearSlobPageFree b.pageNo else h
    HeapOk h' ⟨L.held.erase b.pageNo, L.live.erase b⟩ ∧ OnlyPage h h' b.pageNo [] := by
  have hoff : ∀ d, b.pageNo ∉
      (if (h.page b.pageNo).slobFree then h.clearSlobPageFree b.pageNo else h).list d := by
    intro d
    by_cases hflag : (h.page b.pageNo).slobFree = true
    · rw [if_pos hflag, Heap.clearSlobPageFree_list, (hok.listNodup d).mem_erase_iff]
      simp
    · rw [if_neg hflag, hp.listed d]
      exact fun hd => hflag (hp.flag.mpr hd.1)
  have ho : OnlyPage h (if (h.page b.pageNo).slobFree then h.clearSlobPageFree b.pageNo
      else h) b.pageNo [] := by
    split
    · refine ⟨fun q hq => Heap.clearSlobPageFree_page_ne _ _ _ hq, fun x _ => rfl,
        fun q hq d => ?_, ⟨rfl, rfl, rfl⟩⟩
      exact List.mem_erase_of_ne hq
    · exact ⟨fun q _ => rfl, fun x _ => rfl, fun q _ d => Iff.rfl, ⟨rfl, rfl, rfl⟩⟩
  refine ⟨hok.change ho (by simp) (fun q hq => blocksOn_erase_ne hq.symm) ?_
    (hok.heldNodup.erase _) ?_ ?_ ?_, ho⟩
  · intro q hq
    exact List.mem_erase_of_ne hq
  · intro hin
    exact absurd hin (by rw [hok.heldNodup.mem_erase_iff]; simp)
  · intro _
    rw [blocksOn_erase_same]
    exact ⟨hlast, hoff⟩
  · intro d
    split
    · exact (hok.listNodup d).erase _
    · exact hok.listNodup d

/-- The page was full: the block becomes its only free one. -/
theorem free_full (hok : HeapOk h L) (hb : b ∈ L.live)
    (hp : PageGood h c (blocksOn L.live b.pageNo) b.pageNo [])
    (hne : (blocksOn L.live b.pageNo).erase b ≠ []) :
    let h' := listWith h b.pageNo b.ext
      (setSlob h.mem b.start (SLOB_UNITS b.size) (pageStop b.pageNo)) (slobListOf b.size)
    HeapOk h' ⟨L.held, L.live.erase b⟩ ∧ Frame ⟨L.held, L.live.erase b⟩ h h' ∧
      SameCounters h h' := by
  have hmem : b ∈ blocksOn L.live b.pageNo := mem_blocksOn.mpr ⟨hb, rfl⟩
  have hin := hp.tiled.liveIn b hmem
  have hpos := hp.tiled.ext_pos hmem
  have hs : Slot b.pageNo b.ext (pageStop b.pageNo) :=
    ⟨hin, hpos, by rw [pageStop_eq]; omega, Nat.le_refl _⟩
  have hoff : ∀ d, b.pageNo ∉ h.list d := by
    intro d
    rw [hp.listed d]
    simp
  have ht : Tiled b.pageNo ((blocksOn L.live b.pageNo).erase b) [b.ext] :=
    hp.tiled.erase hmem hs.gapped (List.forall_mem_singleton.mpr hin) fun u => by simp
  have hclass : ∀ x ∈ (blocksOn L.live b.pageNo).erase b,
      slobListOf x.size = slobListOf b.size := fun x hx =>
    (hp.classed x (List.mem_of_mem_erase hx)).trans (hp.classed b hmem).symm
  exact erase_of_page hok hb (onlyPage_listWith hs) (List.forall_mem_singleton.mpr hin)
    (fun u hu => hu) hne (pageGood_listWith hs hp.pos hp.slab hoff ht hclass)
    (nodup_listWith hoff hok.listNodup _)

/-- The page is partially free: the block is merged into its free list. -/
theorem free_partial (hok : HeapOk h L) (hb : b ∈ L.live)
    (hp : PageGood h c (blocksOn L.live b.pageNo) b.pageNo fl) (hfl : fl ≠ [])
    (hne : (blocksOn L.live b.pageNo).erase b ≠ []) :
    let h1 := h.setPage b.pageNo
      { h.page b.pageNo with units := (h.page b.pageNo).units + SLOB_UNITS b.size }
    ∃ v, pageFree (h1.view b.pageNo) b.start (SLOB_UNITS b.size) = some v ∧
      HeapOk (h1.setView b.pageNo v) ⟨L.held, L.live.erase b⟩ ∧
      Frame ⟨L.held, L.live.erase b⟩ h (h1.setView b.pageNo v) ∧
      SameCounters h (h1.setView b.pageNo v) := by
  intro h1
  have hmem : b ∈ blocksOn L.live b.pageNo := mem_blocksOn.mpr ⟨hb, rfl⟩
  have hin := hp.tiled.liveIn b hmem
  have hview : h1.view b.pageNo = h.view b.pageNo := by
    simp only [h1, Heap.view, Heap.setPage_mem, Heap.setPage_page]
  obtain ⟨v, fl', hrun, hfl', hne', hcov, hsame⟩ := pageFree_spec hp.free hfl
    (hp.tiled.ext_pos hmem) hin fun f hf => (hp.tiled.free_apart hf hmem).symm
  have ht := hp.tiled.erase hmem hfl'.gapped hfl'.inPage hcov
  have htotal := ht.total_add
  have htotal' := hp.tiled.total_add
  have herase := total_exts_erase hmem
  have hpage : (h1.setView b.pageNo v).page b.pageNo = { h.page b.pageNo with
      units := (h.page b.pageNo).units + SLOB_UNITS b.size, freelist := v.freelist } := by
    simp only [h1, Heap.setView_page, Heap.setPage_page]
  have ho : OnlyPage h (h1.setView b.pageNo v) b.pageNo (b.ext :: fl) := by
    refine ⟨fun q hq => ?_, hsame, fun q _ d => Iff.rfl, ⟨rfl, rfl, rfl⟩⟩
    rw [Heap.setView_page_ne _ _ _ _ hq]
    exact Heap.setPage_page_ne _ _ _ _ hq
  have hnew : PageGood (h1.setView b.pageNo v) c ((blocksOn L.live b.pageNo).erase b)
      b.pageNo fl' := by
    refine ⟨ht, hp.pos, ?_, ?_, ?_, ?_, ?_, ?_⟩
    · rw [hpage]
      exact hp.slab
    · rw [Heap.setView_view]
      exact hfl'
    · rw [hpage]
      simp only [hp.units]
      omega
    · rw [hpage]
      exact iff_of_true (hp.flag.mpr hfl) hne'
    · exact fun x hx => hp.classed x (List.mem_of_mem_erase hx)
    · intro d
      have hold := hp.listed d
      simp only [hfl, ne_eq, not_false_eq_true, true_and] at hold
      simp only [hne', ne_eq, not_false_eq_true, true_and]
      exact hold
  refine ⟨v, by rw [hview]; exact hrun, erase_of_page hok hb ho ?_ (fun u hu => ?_) hne hnew
    hok.listNodup⟩
  · exact List.forall_mem_cons.mpr ⟨hin, hp.free.inPage⟩
  · rw [hcov]
    exact (covers_cons _ _ _).mp hu

/-- The test for handing the page back is that the block is the last one. -/
theorem give_back_iff (hp : PageGood h c (blocksOn L.live b.pageNo) b.pageNo fl)
    (hb : b ∈ L.live) :
    toUnsigned ((h.page b.pageNo).units + SLOB_UNITS b.size) = SLOB_UNITS PAGE_SIZE ↔
      (blocksOn L.live b.pageNo).erase b = [] := by
  have hmem : b ∈ blocksOn L.live b.pageNo := mem_blocksOn.mpr ⟨hb, rfl⟩
  have h1 := hp.tiled.total_add
  have h2 := total_exts_erase hmem
  rw [hp.units, ← Int.natCast_add, toUnsigned_natCast (by omega), SLOB_UNITS_PAGE_SIZE]
  constructor
  · intro hfull
    by_contra hne
    obtain ⟨x, hx⟩ := List.exists_mem_of_ne_nil _ hne
    have h3 := total_exts_erase hx
    have h4 : 0 < SLOB_UNITS x.size := hp.tiled.ext_pos (List.mem_of_mem_erase hx)
    omega
  · intro hnil
    rw [hnil, exts_nil, total_nil] at h2
    omega

/-- **The free section** of a live block: its page is given up if nothing else
is live there, else the block joins the free list. -/
theorem slobFreeSection_spec (hok : HeapOk h L) (hb : b ∈ L.live) :
    (∃ h', slobFreeSection h b.start b.size = some (h', some b.pageNo) ∧
      HeapOk h' ⟨L.held.erase b.pageNo, L.live.erase b⟩ ∧ h'.mem = h.mem ∧
      (∀ q, q ≠ b.pageNo → h'.page q = h.page q) ∧ SameCounters h h') ∨
    (∃ h', slobFreeSection h b.start b.size = some (h', none) ∧
      HeapOk h' ⟨L.held, L.live.erase b⟩ ∧ Frame ⟨L.held, L.live.erase b⟩ h h' ∧
      SameCounters h h') := by
  obtain ⟨hmem, c, fl, hp⟩ := hok.page_of_live hb
  have hvp : virtToPage b.start = b.pageNo := rfl
  rw [slobFreeSection, hvp]
  by_cases hlast : (blocksOn L.live b.pageNo).erase b = []
  · obtain ⟨hok', ho⟩ := free_last hok hp hlast
    exact Or.inl ⟨_, if_pos ((give_back_iff hp hb).mpr hlast), hok',
      funext fun x => ho.mem x (by simp), ho.page, ho.counters⟩
  · dsimp only
    rw [if_neg (mt (give_back_iff hp hb).mp hlast)]
    by_cases hfl : fl = []
    · subst hfl
      have hflag : ¬ (h.page b.pageNo).slobFree = true := by
        rw [hp.flag]
        simp
      have hnext : pageMask (b.start + SLOB_UNITS PAGE_SIZE) = pageStop b.pageNo := by
        have hin := (hp.tiled.liveIn b hmem)
        have hpos := hp.tiled.ext_pos hmem
        simp only [InPage, Ext.Within, Ext.stop, Block.ext] at hin hpos
        rw [SLOB_UNITS_PAGE_SIZE]
        refine @pageMask_eq (b.pageNo + 1) _ ?_ ?_
        · rw [pageStart, ← pageStop, pageStop_eq]
          omega
        · rw [pageStop_eq, pageStart, ← pageStop]
          omega
      rw [if_pos hflag, hnext]
      exact Or.inr ⟨_, rfl, free_full hok hb hp hlast⟩
    · rw [if_neg (by rw [not_not]; exact hp.flag.mpr hfl)]
      obtain ⟨v, hrun, hok', hw⟩ := free_partial hok hb hp hfl hlast
      rw [hrun]
      exact Or.inr ⟨_, rfl, hok', hw⟩

end FreeSection

end OsProjects.Slob
