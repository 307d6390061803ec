import OsProjects.Slob.Kmalloc

/-!
# Every run of `kmalloc` and `kfree`

`KOk s L` ties the live objects to the SLOB ledger `L`: an object of units is a
live block with its size in the header, an object of pages lies outside the
pages SLOB holds, and what two objects took is apart. A call spares every other
object (`ObjOk.congr`), so the invariant holds along every run, for alignments
between 4 and `PAGE_SIZE`.

Past `PAGE_SIZE` the subtraction in `size < PAGE_SIZE - align` wraps and the
object's pointer leaves its page (`kmalloc_large_align`).
-/

namespace OsProjects.Slob

open Framework

/-! ## The invariant -/

/-- The object is as the call that returned it left it. -/
def ObjOk (align : Nat) (k : KHeap) (L : Ledger) (o : Obj) : Prop :=
  match o.took with
  | .units b => b ∈ L.live ∧ b.size = o.size + align ∧ 0 < o.size ∧
      o.ptr = SLOB_UNIT * b.start + align ∧ align ∣ SLOB_UNIT * b.start ∧
      readLE k.slob.mem (SLOB_UNIT * b.start) 4 = o.size
  | .pages pn order => 0 < pn ∧ o.ptr = PAGE_SIZE * pn ∧ pn + 2 ^ order ≤ 2 ^ 20 ∧
      o.size ≤ PAGE_SIZE * 2 ^ order ∧ k.compound pn = order ∧
      ∀ q, pn ≤ q → q < pn + 2 ^ order → q ∉ L.held

structure KOk (align : Nat) (s : KSys) (L : Ledger) : Prop where
  heap : HeapOk s.k.slob L
  flagged : ∀ q, (s.k.slob.page q).slab = true → q ∈ L.held
  objs : ∀ o ∈ s.objs, ObjOk align s.k L o
  apart : s.objs.Pairwise fun o o' => o.took.area.Apart o'.took.area
  noBug : s.bug = false

/-- Architectures the frontend works on. -/
structure ArchOk (align : Nat) : Prop where
  pow : ∃ j ≤ 12, align = 2 ^ j
  min : 4 ≤ align

section Arch

variable {align : Nat}

theorem ArchOk.alignOk (ha : ArchOk align) : AlignOk align := Or.inr ha.pow

theorem ArchOk.dvd (ha : ArchOk align) : align ∣ PAGE_SIZE := by
  obtain ⟨j, hj, rfl⟩ := ha.pow
  exact Nat.pow_dvd_pow 2 hj

theorem ArchOk.le (ha : ArchOk align) : align ≤ 4096 :=
  Nat.le_of_dvd (by decide) ha.dvd

theorem ArchOk.even (ha : ArchOk align) : 2 ∣ align := by
  have hmin := ha.min
  have h0 : align ≠ 0 := by omega
  exact (ha.alignOk.even h0).resolve_left (by omega)

/-- Up to `PAGE_SIZE` the test does not wrap. -/
theorem ArchOk.isSmall_iff (ha : ArchOk align) (size : Nat) :
    isSmall align size = true ↔ size + align < 4096 := by
  have hle := ha.le
  unfold isSmall PAGE_SIZE
  rw [decide_eq_true_eq]
  omega

theorem flagged_iff {s : KSys} {L : Ledger} (hk : KOk align s L) (q : Nat) :
    (s.k.slob.page q).slab = true ↔ q ∈ L.held := by
  refine ⟨hk.flagged q, fun hq => ?_⟩
  obtain ⟨c, fl, hp⟩ := hk.heap.pages q hq
  exact hp.slab

end Arch

/-! ## What is known of one object -/

section Objects

variable {align : Nat} {s : KSys} {L : Ledger} {o : Obj}

/-- The bytes of a block and the page it is on. -/
theorem HeapOk.block_bytes {h : Heap} {b : Block} (hok : HeapOk h L) (hb : b ∈ L.live) :
    PAGE_SIZE * b.pageNo ≤ SLOB_UNIT * b.start ∧
      SLOB_UNIT * b.start + b.size ≤ PAGE_SIZE * (b.pageNo + 1) ∧
      SLOB_UNIT * SLOB_UNITS b.size = (b.size + 1) / 2 * 2 ∧
      SLOB_UNIT * b.start + SLOB_UNIT * SLOB_UNITS b.size ≤ PAGE_SIZE * (b.pageNo + 1) := by
  obtain ⟨hmem, c, fl, hfl⟩ := hok.page_of_live hb
  have hin := hfl.tiled.liveIn b hmem
  have hlen := SLOB_UNITS_eq (hok.block_size hb).2
  unfold InPage Ext.Within pageStart pageStop at hin
  simp only [Block.ext, Ext.stop] at hin
  unfold SLOB_UNIT PAGE_SIZE
  omega

theorem pageOf_eq {p q : Nat} (h1 : PAGE_SIZE * q ≤ p) (h2 : p < PAGE_SIZE * (q + 1)) :
    pageOf p = q := by
  unfold pageOf PAGE_SIZE at *
  omega

theorem ObjOk.pageOf (hk : KOk align s L) (ho : ObjOk align s.k L o) :
    (∀ b, o.took = .units b → pageOf o.ptr = b.pageNo) ∧
      ∀ pn order, o.took = .pages pn order → pageOf o.ptr = pn := by
  constructor
  · intro b hb
    rw [ObjOk, hb] at ho
    obtain ⟨hlive, hsize, hpos, hptr, -, -⟩ := ho
    have hbytes := hk.heap.block_bytes hlive
    rw [hptr]
    exact pageOf_eq (by omega) (by omega)
  · intro pn order hb
    rw [ObjOk, hb] at ho
    rw [ho.2.1]
    unfold Slob.pageOf PAGE_SIZE
    omega

/-- The memory an object grants its owner and the header it has in the SLOB
heap. -/
def ranges (align : Nat) (k : KHeap) (o : Obj) : List Ext :=
  ⟨o.ptr, (ksize align k o.ptr).getD 0⟩ ::
    if (k.slob.page (pageOf o.ptr)).slab then [⟨o.ptr - align, 4⟩] else []

/-- What the frontend finds out about an object from its pointer alone. -/
structure Observed (align : Nat) (k : KHeap) (o : Obj) : Prop where
  aligned : align ∣ o.ptr
  past : ZERO_SIZE_PTR < o.ptr
  room : ∃ n, ksize align k o.ptr = some n ∧ o.size ≤ n
  target : kfreeTarget align k o.ptr = o.took.handback
  within : ∀ r ∈ ranges align k o, r.Within o.took.area.start o.took.area.stop
  disjoint : (ranges align k o).Pairwise Ext.Apart

theorem observed_units (ha : ArchOk align) (hk : KOk align s L) {b : Block}
    (ho : ObjOk align s.k L o) (htook : o.took = .units b) : Observed align s.k o := by
  have hpage := (ho.pageOf hk).1 b htook
  rw [ObjOk, htook] at ho
  obtain ⟨hlive, hsize, hpos, hptr, hdvd, hhead⟩ := ho
  have hslab : (s.k.slob.page (pageOf o.ptr)).slab = true := by
    rw [flagged_iff hk, hpage]
    exact hk.heap.housed b hlive
  have hle := (hk.heap.block_size hlive).2
  have hbytes := (hk.heap.block_bytes hlive).2.2.1
  have hstart := hk.heap.block_pos hlive
  have hmin := ha.min
  have heven := ha.even
  have hback : o.ptr - align = SLOB_UNIT * b.start := by omega
  have hroom : ksize align s.k o.ptr = some ((o.size + 1) / 2 * 2) := by
    unfold ksize
    rw [if_neg (by omega), if_neg (by unfold ZERO_SIZE_PTR; omega), if_pos hslab, hback,
      hhead, SLOB_UNITS_eq (by omega)]
    unfold SLOB_UNIT PAGE_SIZE at *
    congr 1
    omega
  have hranges : ranges align s.k o =
      [⟨o.ptr, (o.size + 1) / 2 * 2⟩, ⟨SLOB_UNIT * b.start, 4⟩] := by
    rw [ranges, hroom, if_pos hslab, hback]
    rfl
  refine ⟨?_, ?_, ⟨_, hroom, by omega⟩, ?_, ?_, ?_⟩
  · rw [hptr]
    exact Nat.dvd_add hdvd (Nat.dvd_refl align)
  · unfold ZERO_SIZE_PTR
    omega
  · unfold kfreeTarget
    rw [if_neg (by unfold ZERO_SIZE_PTR; omega), if_pos hslab, htook]
    unfold PAGE_SIZE at hle
    simp only [Taken.handback, hback, hhead, Handback.units.injEq, true_and]
    omega
  · rw [hranges, htook]
    simp only [List.forall_mem_cons, Ext.Within, Ext.stop, Taken.area, hbytes]
    refine ⟨by omega, by omega, by simp⟩
  · rw [hranges]
    refine List.pairwise_pair.mpr (Or.inr ?_)
    simp only [Ext.stop]
    omega

theorem pages_no_wrap {pn order : Nat} (hpos : 0 < pn) (hfit : pn + 2 ^ order ≤ 2 ^ 20) :
    PAGE_SIZE * 2 ^ order % 2 ^ 32 = PAGE_SIZE * 2 ^ order := by
  unfold PAGE_SIZE
  omega

theorem observed_pages (ha : ArchOk align) (hk : KOk align s L) {pn order : Nat}
    (ho : ObjOk align s.k L o) (htook : o.took = .pages pn order) :
    Observed align s.k o := by
  have hpage := (ho.pageOf hk).2 pn order htook
  rw [ObjOk, htook] at ho
  obtain ⟨hpos, hptr, hfit, hsize, hcomp, hout⟩ := ho
  have hslab : ¬ (s.k.slob.page (pageOf o.ptr)).slab = true := by
    rw [flagged_iff hk, hpage]
    exact hout pn (Nat.le_refl pn) (Nat.lt_add_of_pos_right (Nat.two_pow_pos order))
  have hbig : ZERO_SIZE_PTR < o.ptr := by
    rw [hptr]
    unfold ZERO_SIZE_PTR PAGE_SIZE
    omega
  have hroom : ksize align s.k o.ptr = some (PAGE_SIZE * 2 ^ order) := by
    unfold ksize
    rw [if_neg (by omega), if_neg (by omega), if_neg hslab, hpage, hcomp,
      pages_no_wrap hpos hfit]
  have hranges : ranges align s.k o = [⟨o.ptr, PAGE_SIZE * 2 ^ order⟩] := by
    rw [ranges, hroom, if_neg hslab]
    rfl
  refine ⟨?_, hbig, ⟨_, hroom, hsize⟩, ?_, ?_, ?_⟩
  · rw [hptr]
    exact ha.dvd.mul_right pn
  · rw [kfreeTarget, if_neg (by omega), if_neg hslab, htook, hpage, hcomp]
    rfl
  · rw [hranges, htook, hptr]
    simp only [List.forall_mem_singleton, Ext.Within, Ext.stop, Taken.area, Nat.le_refl,
      and_self]
  · rw [hranges]
    exact List.pairwise_singleton _ _

/-- **The frontend recovers everything from the pointer.** -/
theorem KOk.observed (ha : ArchOk align) (hk : KOk align s L) (ho : o ∈ s.objs) :
    Observed align s.k o := by
  have hobj := hk.objs o ho
  cases htook : o.took with
  | units b => exact observed_units ha hk hobj htook
  | pages pn order => exact observed_pages ha hk hobj htook

/-- An object survives what leaves its header and its pages alone. -/
theorem ObjOk.congr {k k' : KHeap} {L L' : Ledger} (ho : ObjOk align k L o)
    (hunits : ∀ b, o.took = .units b → b ∈ L.live → b ∈ L'.live ∧
      ∀ x, SLOB_UNIT * b.start ≤ x → x < SLOB_UNIT * b.start + 4 →
        k'.slob.mem x = k.slob.mem x)
    (hpages : ∀ pn order, o.took = .pages pn order → k'.compound pn = k.compound pn ∧
      ∀ q, pn ≤ q → q < pn + 2 ^ order → q ∉ L.held → q ∉ L'.held) :
    ObjOk align k' L' o := by
  unfold ObjOk at *
  cases htook : o.took with
  | units b =>
      rw [htook] at ho
      obtain ⟨hlive, hsize, hpos, hptr, hdvd, hhead⟩ := ho
      obtain ⟨hlive', hmem⟩ := hunits b htook hlive
      exact ⟨hlive', hsize, hpos, hptr, hdvd, (readLE_congr hmem).trans hhead⟩
  | pages pn order =>
      rw [htook] at ho
      obtain ⟨hpos, hptr, hfit, hsize, hcomp, hout⟩ := ho
      obtain ⟨hcomp', hout'⟩ := hpages pn order htook
      exact ⟨hpos, hptr, hfit, hsize, hcomp'.trans hcomp,
        fun q h1 h2 => hout' q h1 h2 (hout q h1 h2)⟩

end Objects

/-! ## Steps -/

section Steps

variable {align : Nat} {s s' : KSys} {L : Ledger} {cfg : Config}

/-- Pages of an object of pages, byte by byte. -/
theorem apart_of_pages {pn order : Nat} {b : Block} {h : Heap} (hok : HeapOk h L)
    (hb : b ∈ L.live) (hout : ∀ q, pn ≤ q → q < pn + 2 ^ order → q ∉ L.held) :
    (Taken.units b).area.Apart (Taken.pages pn order).area := by
  have hbytes := hok.block_bytes hb
  have hpage : b.pageNo < pn ∨ pn + 2 ^ order ≤ b.pageNo := by
    by_contra hnot
    exact hout b.pageNo (by omega) (by omega) (hok.housed b hb)
  simp only [Taken.area, Ext.Apart, Ext.stop]
  unfold PAGE_SIZE at *
  omega

theorem apart_of_blocks {b b' : Block} (hap : b.ext.Apart b'.ext) :
    (Taken.units b).area.Apart (Taken.units b').area := by
  simp only [Taken.area, Ext.Apart, Ext.stop, Block.ext] at *
  unfold SLOB_UNIT
  omega

/-- A page that is apart from an object of pages is none of its pages. -/
theorem not_page_of_apart {pn order q : Nat} {o : Obj} (ho : o.took = .pages pn order)
    (hap : o.took.area.Apart ⟨PAGE_SIZE * q, PAGE_SIZE * 2 ^ 0⟩) :
    ∀ r, pn ≤ r → r < pn + 2 ^ order → r ≠ q := by
  intro r h1 h2
  rw [ho] at hap
  simp only [Taken.area, Ext.Apart, Ext.stop] at hap
  unfold PAGE_SIZE at hap
  omega

/-- The size header of a small object lies in its block. -/
theorem KOk.header_in_block (ha : ArchOk align) (hk : KOk align s L) {o : Obj} {b : Block}
    (ho : o ∈ s.objs) (htook : o.took = .units b) {x : Nat} (h1 : SLOB_UNIT * b.start ≤ x)
    (h2 : x < SLOB_UNIT * b.start + 4) : b.ext.Has (x / 2) := by
  have hobj := hk.objs o ho
  rw [ObjOk, htook] at hobj
  have hsize := hobj.2.1
  have hmin := ha.min
  exact Block.has_byte (hk.heap.block_size hobj.1).2 h1 (by omega)

/-- A small object: the SLOB call and the store of its header. -/
theorem kmalloc_small (ha : ArchOk align) (hk : KOk align s L) {size b : Nat} {zero : Bool}
    {pg : Option Nat} {h' : Heap} (hpos : 0 < size) (hsmall : size + align < 4096)
    (hfresh : ∀ pn ∈ pg, s.Fresh pn 0)
    (hal : Allocated s.k.slob h' L (size + align) align zero pg b) :
    ∃ L', KOk align ⟨{ s.k with slob := { h' with
        mem := writeLE h'.mem (SLOB_UNIT * b) 4 size } },
      ⟨SLOB_UNIT * b + align, size, .units ⟨b, size + align⟩⟩ :: s.objs, false⟩ L' := by
  have hmin := ha.min
  have hmem : (⟨b, size + align⟩ : Block) ∈ (⟨b, size + align⟩ :: L.live) :=
    List.mem_cons_self
  have hle := (hal.heap.block_size hmem).2
  -- the header lies in the new block
  have hhead : ∀ x, ¬ (⟨b, size + align⟩ : Block).ext.Has (x / 2) →
      writeLE h'.mem (SLOB_UNIT * b) 4 size x = h'.mem x := by
    intro x hx
    refine writeLE_frame _ _ _ _ _ ?_
    by_contra hnot
    exact hx (Block.has_byte hle (by simp only; omega) (by simp only; omega))
  have hold : ∀ b' ∈ L.live, ∀ x, b'.ext.Has (x / 2) →
      writeLE h'.mem (SLOB_UNIT * b) 4 size x = s.k.slob.mem x := by
    intro b' hb' x hx
    rw [hhead x, hal.frame.mem.block hb' hx]
    refine (hal.heap.block_apart (List.mem_cons_of_mem _ hb') hmem ?_).not_has hx
    rintro rfl
    exact hal.heap.not_mem_of_cons hb'
  have hheld : ∀ q, q ∈ heldWith L.held pg → q ∈ L.held ∨ q ∈ pg := by
    intro q hq
    cases pg with
    | none => exact Or.inl hq
    | some pn => exact (List.mem_cons.mp hq).symm.imp_right fun h => by simp [h]
  refine ⟨⟨heldWith L.held pg, ⟨b, size + align⟩ :: L.live⟩, ?_, ?_, ?_, ?_, rfl⟩
  · refine hal.heap.congr (fun x _ hx => hhead x fun hin => hx ?_) (fun q _ => rfl) rfl
    exact covers_exts.mpr ⟨_, hmem, hin⟩
  · intro q hq
    by_contra hnot
    have hpage : h'.page q = s.k.slob.page q := hal.frame.page q hnot
    have hin := hk.flagged q (by rw [← hpage]; exact hq)
    refine hnot ?_
    cases pg with
    | none => exact hin
    | some pn => exact List.mem_cons_of_mem _ hin
  · refine List.forall_mem_cons.mpr ⟨?_, fun o ho => (hk.objs o ho).congr ?_ ?_⟩
    · refine ⟨hmem, rfl, hpos, rfl, ?_, ?_⟩
      · exact hal.aligned.resolve_left (by omega)
      · rw [readLE_writeLE]
        exact Nat.mod_eq_of_lt (by omega)
    · intro b' htook hb'
      refine ⟨List.mem_cons_of_mem _ hb', fun x h1 h2 => hold b' hb' x ?_⟩
      exact hk.header_in_block ha ho htook h1 h2
    · intro pn order htook
      refine ⟨rfl, fun q h1 h2 hout hin => ?_⟩
      rcases hheld q hin with hin | hin
      · exact hout hin
      · exact not_page_of_apart htook ((hfresh q hin).2.2.2 o ho) q h1 h2 rfl
  · refine List.pairwise_cons.mpr ⟨fun o ho => ?_, hk.apart⟩
    have hobj := hk.objs o ho
    unfold ObjOk at hobj
    cases htook : o.took with
    | units b' =>
        rw [htook] at hobj
        refine apart_of_blocks (hal.heap.block_apart hmem (List.mem_cons_of_mem _ hobj.1) ?_)
        rintro rfl
        exact hal.heap.not_mem_of_cons hobj.1
    | pages pn order =>
        rw [htook] at hobj
        refine apart_of_pages hal.heap hmem fun q h1 h2 hin => ?_
        rcases hheld q hin with hin | hin
        · exact hobj.2.2.2.2.2 q h1 h2 hin
        · exact not_page_of_apart htook ((hfresh q hin).2.2.2 o ho) q h1 h2 rfl

/-- A large object: pages straight from the page allocator. -/
theorem kmalloc_large (hk : KOk align s L) {size pn : Nat}
    (hfresh : s.Fresh pn (getOrder size)) :
    KOk align ⟨allocPages s.k pn (getOrder size) (getOrder size ≠ 0),
      ⟨PAGE_SIZE * pn, size, .pages pn (getOrder size)⟩ :: s.objs, false⟩ L := by
  obtain ⟨hpos, hfit, hslab, hap⟩ := hfresh
  have hcomp : ∀ q, q ≠ pn → (allocPages s.k pn (getOrder size)
      (getOrder size ≠ 0)).compound q = s.k.compound q := fun q hq =>
    Function.update_of_ne hq _ _
  have hnew : (allocPages s.k pn (getOrder size) (getOrder size ≠ 0)).compound pn =
      getOrder size := by
    unfold allocPages
    by_cases h0 : getOrder size = 0 <;> simp [h0]
  have hout : ∀ q, pn ≤ q → q < pn + 2 ^ getOrder size → q ∉ L.held := by
    intro q h1 h2
    rw [← flagged_iff hk]
    obtain ⟨i, rfl⟩ := Nat.exists_eq_add_of_le h1
    rw [hslab i (by omega)]
    exact Bool.false_ne_true
  refine ⟨hk.heap, hk.flagged, ?_, ?_, rfl⟩
  · refine List.forall_mem_cons.mpr ⟨?_, fun o ho => (hk.objs o ho).congr ?_ ?_⟩
    · exact ⟨hpos, rfl, hfit, le_getOrder size, hnew, hout⟩
    · exact fun b _ hb => ⟨hb, fun x _ _ => rfl⟩
    · intro pn' order htook
      refine ⟨hcomp pn' ?_, fun q _ _ hq => hq⟩
      -- both runs of pages start somewhere, so they cannot start together
      have := hap o ho
      have h1 := Nat.two_pow_pos order
      have h2 := Nat.two_pow_pos (getOrder size)
      rw [htook] at this
      simp only [Taken.area, Ext.Apart, Ext.stop] at this
      unfold PAGE_SIZE at this
      omega
  · exact List.pairwise_cons.mpr ⟨fun o ho => (hap o ho).symm, hk.apart⟩

theorem KOk.with_heap (hk : KOk align s L) {h : Heap} (hs : SameHeap s.k.slob h) :
    KOk align { s with k := { s.k with slob := h } } L := by
  refine ⟨hk.heap.same hs, fun q hq => hk.flagged q ?_, fun o ho => ?_, hk.apart, hk.noBug⟩
  · rw [← hs.page]
    exact hq
  · refine (hk.objs o ho).congr (fun b _ hb => ⟨hb, fun x _ _ => congrFun hs.mem x⟩) ?_
    exact fun _ _ _ => ⟨rfl, fun q _ _ hq => hq⟩

theorem step_kmalloc (ha : ArchOk align) (hk : KOk align s L) {size : Nat} {zero : Bool}
    {node : Int} {pg : Option Nat}
    (hn : knext cfg align s (.kmalloc size zero node pg) = some s') :
    ∃ L', KOk align s' L' := by
  rw [knext] at hn
  split at hn
  case isFalse => cases hn
  case isTrue hg =>
    obtain ⟨hbug, hlt, hfresh⟩ := hg
    by_cases hsmall : isSmall align size = true
    · rw [doKmallocNode, kmallocTakes, if_pos hsmall, if_pos hsmall] at hn
      rw [wantedOrder, if_pos hsmall] at hfresh
      have hsum := (ha.isSmall_iff size).mp hsmall
      by_cases h0 : size = 0
      · rw [if_pos h0, if_pos h0] at hn
        obtain rfl := Option.some.inj hn
        exact ⟨L, hk⟩
      · rw [if_neg h0, if_neg h0, Nat.mod_eq_of_lt (by omega)] at hn
        have hsize : SizeOk (size + align) := ⟨by omega, Nat.le_of_lt hsum⟩
        have hpg : ∀ pn, pg = some pn → 0 < pn ∧ pn ∉ L.held := by
          rintro pn rfl
          obtain ⟨hpos, -, hslab, -⟩ := hfresh pn rfl
          refine ⟨hpos, ?_⟩
          rw [← flagged_iff hk, ← Nat.add_zero pn, hslab 0 (by decide)]
          exact Bool.false_ne_true
        rcases slobAlloc_spec hk.heap cfg zero node hsize ha.alignOk hpg with
          ⟨h', hrun, -, hs⟩ | ⟨pg', b, h', hrun, hpg', hal, -⟩
        · rw [hrun] at hn
          obtain rfl := Option.some.inj hn
          exact ⟨L, hk.with_heap hs⟩
        · rw [hrun] at hn
          obtain rfl := Option.some.inj hn
          have hfresh' : ∀ pn ∈ pg', s.Fresh pn 0 := by
            rcases hpg' with rfl | rfl
            · exact nofun
            · exact hfresh
          rw [hbug]
          exact kmalloc_small ha hk (Nat.pos_of_ne_zero h0) hsum hfresh' hal
    · rw [doKmallocNode, kmallocTakes, if_neg hsmall, if_neg hsmall] at hn
      rw [wantedOrder, if_neg hsmall] at hfresh
      cases pg with
      | none =>
          obtain rfl := Option.some.inj hn
          exact ⟨L, hk⟩
      | some pn =>
          obtain rfl := Option.some.inj hn
          rw [hbug]
          exact ⟨L, kmalloc_large hk (hfresh pn rfl)⟩

/-- Another object than the one a pointer belongs to has its area elsewhere. -/
theorem KOk.area_apart (hk : KOk align s L) {o o' : Obj} (ho : o ∈ s.objs)
    (ho' : o' ∈ s.objs) (hne : o' ≠ o) : o'.took.area.Apart o.took.area := by
  have hsymm : Std.Symm fun x y : Obj => x.took.area.Apart y.took.area :=
    ⟨fun _ _ h => h.symm⟩
  exact hk.apart.forall ho' ho hne

theorem step_kfree (ha : ArchOk align) (hk : KOk align s L) {p : Nat}
    (hn : knext cfg align s (.kfree p) = some s') : ∃ L', KOk align s' L' := by
  rw [knext] at hn
  split at hn
  case isFalse => cases hn
  case isTrue hg =>
    obtain ⟨hbug, hp⟩ := hg
    have hsub : (s.objs.filter fun o => o.ptr ≠ p).Sublist s.objs := List.filter_sublist
    have hap := hk.apart.sublist hsub
    rcases hp with hp | ⟨o, ho, rfl⟩
    · rw [kfree, kfreeTarget, if_pos hp] at hn
      obtain rfl := Option.some.inj hn
      exact ⟨L, hk.heap, hk.flagged, fun o ho => hk.objs o (hsub.subset ho), hap, hk.noBug⟩
    · have htarget := (hk.observed ha ho).target
      have hobj := hk.objs o ho
      rw [kfree, htarget] at hn
      cases htook : o.took with
      | pages pn order =>
          rw [htook] at hn
          obtain rfl := Option.some.inj hn
          exact ⟨L, hk.heap, hk.flagged, fun o ho => hk.objs o (hsub.subset ho), hap,
            hk.noBug⟩
      | units b =>
          rw [htook] at hn
          rw [ObjOk, htook] at hobj
          obtain ⟨h', pg, hrun, hheap, hw, hgone, hpage, -⟩ := slobFree_spec hk.heap hobj.1
          simp only [Taken.handback, hrun] at hn
          obtain rfl := Option.some.inj hn
          refine ⟨_, hheap, fun q hq => ?_, fun o' ho' => ?_, hap, hk.noBug⟩
          · -- a page that is still flagged was held, and is not the one given back
            have hin : q ∈ L.held := by
              by_contra hnot
              refine hnot (hk.flagged q ?_)
              rw [← hpage q hnot]
              exact hq
            rcases hgone with rfl | ⟨rfl, hslab⟩
            · exact hin
            · refine (List.mem_erase_of_ne ?_).mpr hin
              rintro rfl
              rw [hslab] at hq
              exact Bool.false_ne_true hq
          · have ho'' := hsub.subset ho'
            have hne : o' ≠ o := by
              rintro rfl
              simp at ho'
            have hareas := hk.area_apart ho ho'' hne
            refine (hk.objs o' ho'').congr (fun b' htook' hb' => ?_) fun pn order _ => ?_
            · have hbb : b' ∈ L.live.erase b := by
                refine (List.mem_erase_of_ne ?_).mpr hb'
                rintro rfl
                rw [htook, htook'] at hareas
                have hpos := SLOB_UNITS_pos (hk.heap.block_size hb').1
                  (hk.heap.block_size hb').2
                simp only [Taken.area, Ext.Apart, Ext.stop, SLOB_UNIT] at hareas
                omega
              refine ⟨hbb, fun x h1 h2 => hw.block hbb ?_⟩
              exact hk.header_in_block ha ho'' htook' h1 h2
            · refine ⟨rfl, fun q _ _ hout hin => hout ?_⟩
              cases pg with
              | none => exact hin
              | some pn => exact List.mem_of_mem_erase hin

theorem step_kwrite (ha : ArchOk align) (hk : KOk align s L) {o : Obj} {off : Nat}
    {byte : UInt8} (hn : knext cfg align s (.write o off byte) = some s') :
    KOk align s' L := by
  rw [knext] at hn
  split at hn
  case isFalse => cases hn
  case isTrue hg =>
    obtain ⟨hbug, ho, hoff⟩ := hg
    obtain rfl := Option.some.inj hn
    have hobs := hk.observed ha ho
    have hobj := hk.objs o ho
    -- the byte is the object's own, past its header
    have hrange := hobs.within ⟨o.ptr, (ksize align s.k o.ptr).getD 0⟩ List.mem_cons_self
    have hin : o.took.area.Has (o.ptr + off) := by
      simp only [Ext.Within, Ext.stop] at hrange
      simp only [Ext.Has, Ext.stop]
      omega
    have hother : ∀ x, ¬ o.took.area.Has x →
        Function.update s.k.slob.mem (o.ptr + off) byte x = s.k.slob.mem x := by
      intro x hx
      refine Function.update_of_ne ?_ _ _
      rintro rfl
      exact hx hin
    refine ⟨?_, hk.flagged, fun o' ho' => (hk.objs o' ho').congr ?_ ?_, hk.apart, hk.noBug⟩
    · refine hk.heap.congr (fun x hx hfree => hother x fun hbyte => ?_) (fun q _ => rfl) rfl
      unfold ObjOk at hobj
      cases htook : o.took with
      | units b =>
          rw [htook] at hobj hbyte
          refine hfree (covers_exts.mpr ⟨b, hobj.1, ?_⟩)
          simp only [Taken.area, Ext.Has, Ext.stop, Block.ext, SLOB_UNIT] at hbyte ⊢
          omega
      | pages pn order =>
          rw [htook] at hobj hbyte
          have hpage : virtToPage (x / 2) = x / 4096 := by
            unfold virtToPage
            rw [SLOB_UNITS_PAGE_SIZE]
            omega
          rw [hpage] at hx
          simp only [Taken.area, Ext.Has, Ext.stop, PAGE_SIZE] at hbyte
          exact hobj.2.2.2.2.2 _ (by omega) (by omega) hx
    · intro b htook hb
      refine ⟨hb, fun x h1 h2 => ?_⟩
      have hmin := ha.min
      have hobj' := hk.objs o' ho'
      rw [ObjOk, htook] at hobj'
      by_cases hne : o' = o
      · subst hne
        refine Function.update_of_ne ?_ _ _
        have := hobj'.2.2.2.1
        omega
      · have hareas := hk.area_apart ho ho' hne
        refine hother x (hareas.not_has ?_)
        have hbytes := (hk.heap.block_bytes hb).2.2.1
        have hsize := hobj'.2.1
        rw [htook]
        simp only [Taken.area, Ext.Has, Ext.stop]
        omega
    · exact fun pn order _ => ⟨rfl, fun q _ _ hq => hq⟩

/-- **Every call keeps the invariant.** -/
theorem KOk.step (ha : ArchOk align) (hk : KOk align s L) {a : KLabel}
    (hn : knext cfg align s a = some s') : ∃ L', KOk align s' L' := by
  cases a with
  | kmalloc size zero node pg => exact step_kmalloc ha hk hn
  | kfree p => exact step_kfree ha hk hn
  | write o off byte => exact ⟨L, step_kwrite ha hk hn⟩

end Steps

theorem kOk_booted {align : Nat} {s : KSys} (hs : KBooted s) : KOk align s ⟨[], []⟩ := by
  refine ⟨heapOk_empty hs.list, fun q hq => ?_, ?_, ?_, hs.bug⟩
  · rw [hs.slab] at hq
    cases hq
  · rw [hs.objs]
    nofun
  · rw [hs.objs]
    exact List.Pairwise.nil

theorem reach_kOk {cfg : Config} {align : Nat} (ha : ArchOk align) {s : KSys}
    (hs : (kmachine cfg align).Reach s) : ∃ L, KOk align s L := by
  refine @Machine.ReachVia.invariant _ _ _ _ (fun s => ∃ L, KOk align s L) ?_ ?_ s hs
  · exact fun s h0 => ⟨_, kOk_booted h0⟩
  · rintro s a s' ⟨L, hk⟩ _ hn
    exact KOk.step ha hk hn

/-! ## Results -/

def kboot : KSys := ⟨⟨bootHeap, fun _ => 0⟩, [], false⟩

theorem kbooted_kboot : KBooted kboot := ⟨fun _ => rfl, fun _ => rfl, rfl, rfl⟩

/-- A call that takes nothing returns `NULL`, or was asked for nothing. -/
theorem takes_of_pointer {cfg : Config} {align : Nat} {k k' : KHeap} {size p : Nat}
    {zero : Bool} {node : Int} {spAlt pg : Option Nat}
    (hrun : doKmallocNode cfg align k size zero node spAlt pg = some (p, k'))
    (hsize : size ≠ 0) (hp : p ≠ 0) :
    ∃ took, kmallocTakes cfg align k size zero node spAlt pg = some took := by
  rw [doKmallocNode] at hrun
  rw [kmallocTakes]
  by_cases hsmall : isSmall align size = true
  · rw [if_pos hsmall, if_neg hsize] at hrun ⊢
    split at hrun
    · cases hrun
    · rw [Option.some.injEq, Prod.mk.injEq] at hrun
      exact absurd hrun.1.symm hp
    · rename_i hall
      rw [hall]
      exact ⟨_, rfl⟩
  · rw [if_neg hsmall] at hrun ⊢
    cases pg with
    | none =>
        simp only [Option.some.injEq, Prod.mk.injEq] at hrun
        exact absurd hrun.1.symm hp
    | some pn => exact ⟨_, rfl⟩

/-- **The `kmalloc` frontend.** With an alignment from 4 to `PAGE_SIZE`, in
every state a run of calls reaches: no call hit a `BUG_ON`; every live object
is aligned, `ksize` covers the size asked for and `kfree` would give back
exactly what the matching call took; the memory granted and the size headers
of all objects are pairwise disjoint; and every pointer returned stands for
such an object. -/
theorem kmalloc_objects (cfg : Config) (align : Nat) (hpow : ∃ j ≤ 12, align = 2 ^ j)
    (hmin : 4 ≤ align) (s : KSys) (hs : (kmachine cfg align).Reach s) :
    s.bug = false ∧
    (∀ o ∈ s.objs, align ∣ o.ptr ∧ (∃ n, ksize align s.k o.ptr = some n ∧ o.size ≤ n) ∧
      kfreeTarget align s.k o.ptr = o.took.handback) ∧
    (s.objs.flatMap (ranges align s.k)).Pairwise Ext.Apart ∧
    (∀ size zero node pg p k,
      doKmallocNode cfg align s.k size zero node none pg = some (p, k) → size ≠ 0 → p ≠ 0 →
      ∃ took, kmallocTakes cfg align s.k size zero node none pg = some took) := by
  have ha : ArchOk align := ⟨hpow, hmin⟩
  obtain ⟨L, hk⟩ := reach_kOk ha hs
  refine ⟨hk.noBug, fun o ho => ?_, List.pairwise_flatMap.mpr ⟨fun o ho => ?_, ?_⟩,
    fun size zero node pg p k => takes_of_pointer⟩
  · have hobs := hk.observed ha ho
    exact ⟨hobs.aligned, hobs.room, hobs.target⟩
  · exact (hk.observed ha ho).disjoint
  · refine hk.apart.imp_of_mem ?_
    intro o o' ho ho' hap x hx y hy
    have h1 := (hk.observed ha ho).within x hx
    have h2 := (hk.observed ha ho').within y hy
    unfold Ext.Within at h1 h2
    unfold Ext.Apart at *
    omega

theorem kmalloc_objects_two : ∃ s, (kmachine uniform 8).Reach s ∧ s.objs.length = 2 ∧
    (s.objs.flatMap (ranges 8 s.k)).Pairwise Ext.Apart := by
  have hrun : ((kmachine uniform 8).replay kboot
      [.kmalloc 10 false noNode (some 1), .kmalloc 5000 false noNode (some 5),
        .kmalloc 3 true noNode none, .kfree 4104]).map (fun s => s.objs.length) = some 2 := by
    decide +kernel
  obtain ⟨s, hs, hlen⟩ := Option.map_eq_some_iff.mp hrun
  have hreach : (kmachine uniform 8).Reach s :=
    Machine.Reach.replay (.init kbooted_kboot) hs
  exact ⟨s, hreach, hlen,
    (kmalloc_objects uniform 8 ⟨3, by decide, rfl⟩ (by decide) s hreach).2.2.1⟩

/-- **Beyond `PAGE_SIZE` the frontend breaks.** `PAGE_SIZE - align` wraps, so
that a size close to 4 GiB takes the SLOB path, `size + align` wraps to a small
block, and the pointer lies two pages past it: `ksize` answers 4096. -/
theorem kmalloc_large_align : ∃ s, (kmachine uniform 8192).Reach s ∧
    ∃ o ∈ s.objs, o.size = 4294959204 ∧ ksize 8192 s.k o.ptr = some 4096 := by
  have hrun : ((kmachine uniform 8192).replay kboot
      [.kmalloc 4294959204 false noNode (some 2)]).map (fun s =>
        (s.objs, ksize 8192 s.k 16384)) =
      some ([⟨16384, 4294959204, .units ⟨4096, 100⟩⟩], some 4096) := by
    decide +kernel
  obtain ⟨s, hs, hend⟩ := Option.map_eq_some_iff.mp hrun
  rw [Prod.mk.injEq] at hend
  refine ⟨s, Machine.Reach.replay (.init kbooted_kboot) hs, _,
    by rw [hend.1]; exact List.mem_singleton.mpr rfl, rfl, hend.2⟩

end OsProjects.Slob
