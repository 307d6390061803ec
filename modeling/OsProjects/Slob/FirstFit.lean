import OsProjects.Slob.BestFit

/-!
# First fit within a page, for every size

`slob_page_alloc` compares `avail` with `units + delta`, a sum of two `int`s.
`pageAllocLoop` adds the numbers themselves. Here is the loop with the machine's
sum; the two are the same up to the sizes within a page of `SIZE_MAX`
(`slobPageAllocInt_eq`), and there `first_fit` says all of what the function does to
the free list. For larger sizes the sum wraps, and a request that has no room
anywhere is served (`huge_request_served`).

Pointers are numbers and do not wrap.
-/

namespace OsProjects.Slob

open Framework

/-! ## The loop with the machine's sum -/

/-- `units + delta`, which are `int`s. -/
def intSum (units delta : Nat) : Int := ((units + delta : Nat) : Int).bmod 4294967296

def pageAllocLoopInt (v : View) (units align : Nat) :
    Nat → Option Nat → Nat → Option (Option (Nat × View))
  | 0, _, _ => none
  | fuel + 1, prev, cur =>
      let avail := slobUnits v.mem cur
      let aligned := alignUp align cur
      let delta := aligned - cur
      if (avail : Int) ≥ intSum units delta then
        some (some (aligned, takeAligned v units prev cur aligned))
      else if slobLast v.mem cur then some none
      else pageAllocLoopInt v units align fuel (some cur) (slobNext v.mem cur)

/-- The end of `slob_page_alloc`: `NULL`, or the block and the descriptor brought up to
date. -/
def settle (h : Heap) (sp units : Nat) :
    Option (Option (Nat × View)) → Option (Option Nat × Heap)
  | none => none
  | some none => some (none, h)
  | some (some (b, v)) => some (some b, debitUnits (h.setView sp v) sp units)

/-- `slob_page_alloc`, for any `size_t`. -/
def slobPageAllocInt (h : Heap) (sp size align : Nat) : Option (Option Nat × Heap) :=
  settle h sp (SLOB_UNITS size) (pageAllocLoopInt (h.view sp) (SLOB_UNITS size) align
    (SLOB_UNITS PAGE_SIZE) none (h.view sp).freelist)

theorem slobPageAlloc_settle (h : Heap) (sp size align : Nat) :
    slobPageAlloc h sp size align =
      settle h sp (SLOB_UNITS size) (pageAlloc (h.view sp) (SLOB_UNITS size) align) := by
  unfold slobPageAlloc
  generalize pageAlloc (h.view sp) (SLOB_UNITS size) align = out
  match out with
  | none => rfl
  | some none => rfl
  | some (some (b, v)) => rfl

section Sum

variable {units align : Nat}

theorem intSum_eq {delta : Nat} (h : units + delta < 2 ^ 31) :
    intSum units delta = (units + delta : Nat) :=
  Int.bmod_eq_of_le_mul_two (by omega) (by omega)

/-- Rounding up to an alignment of at most a page skips less than a page. -/
theorem alignUp_lt (halign : align ≤ PAGE_SIZE) (cur : Nat) : alignUp align cur < cur + 2048 := by
  unfold PAGE_SIZE at halign
  unfold alignUp SLOB_UNIT
  split
  · omega
  · have hle := Nat.div_mul_le_self (2 * cur + (align - 1)) align
    omega

theorem AlignOk.le_page (h : AlignOk align) : align ≤ PAGE_SIZE := by
  rcases h with rfl | ⟨k, hk, rfl⟩
  · exact Nat.zero_le _
  · exact Nat.pow_le_pow_right Nat.two_pos hk

theorem pageAllocLoopInt_eq (hunits : units ≤ 2 ^ 31 - 2048) (halign : align ≤ PAGE_SIZE)
    (v : View) (fuel : Nat) (prev : Option Nat) (cur : Nat) :
    pageAllocLoopInt v units align fuel prev cur = pageAllocLoop v units align fuel prev cur := by
  induction fuel generalizing prev cur with
  | zero => rfl
  | succ fuel ih =>
      have hskip := alignUp_lt halign cur
      have hsum : intSum units (alignUp align cur - cur) =
          (units + (alignUp align cur - cur) : Nat) := intSum_eq (by omega)
      simp only [pageAllocLoopInt, pageAllocLoop, hsum, ge_iff_le, Int.ofNat_le, ih]

/-- Up to a page below the end of `size_t` there is at least one unit, and room for `delta`. -/
theorem SLOB_UNITS_bounds {size : Nat} (hpos : 1 ≤ size) (hsize : size ≤ 2 ^ 32 - PAGE_SIZE) :
    0 < SLOB_UNITS size ∧ SLOB_UNITS size ≤ 2 ^ 31 - 2048 := by
  have hpage : PAGE_SIZE = 4096 := rfl
  rw [hpage] at hsize
  unfold SLOB_UNITS SLOB_UNIT
  omega

/-- **No request up to `SIZE_MAX + 1 - PAGE_SIZE` makes the sum wrap.** -/
theorem slobPageAllocInt_eq {size : Nat} (hunits : SLOB_UNITS size ≤ 2 ^ 31 - 2048)
    (halign : align ≤ PAGE_SIZE) (h : Heap) (sp : Nat) :
    slobPageAllocInt h sp size align = slobPageAlloc h sp size align := by
  rw [slobPageAllocInt, pageAllocLoopInt_eq hunits halign, slobPageAlloc_settle, pageAlloc]

end Sum

/-! ## What the function does -/

/-- What has become of a request for `units` units at a multiple of `align` on a page
with the free list `fl`. -/
structure FirstFit (h : Heap) (sp : Nat) (fl : List Ext) (units align : Nat) (out : Option Nat)
    (h' : Heap) : Prop where
  null : out = none ↔ ∀ e ∈ fl, ¬ Fits align units e
  kept : out = none → h' = h
  found : ∀ b, out = some b → ∃ pre e post, fl = pre ++ e :: post ∧ Fits align units e ∧
    (∀ f ∈ fl, Fits align units f → e.start ≤ f.start) ∧ b = alignUp align e.start ∧
    h'.decoded sp = some (pre ++ (cut e b units ++ post)) ∧
    (h'.page sp).units = (h.page sp).units - units

/-- The page after the units at `a` have been taken out of `e`. -/
theorem FreePage.carve {h : Heap} {sp a units : Nat} {pre post : List Ext} {e : Ext} {v : View}
    (hp : FreePage h sp (pre ++ e :: post)) (hlo : e.start ≤ a) (hhi : a + units ≤ e.stop)
    (hv : FreeList v sp (pre ++ (cut e a units ++ post))) :
    FreePage (debitUnits (h.setView sp v) sp units) sp (pre ++ (cut e a units ++ post)) ∧
      ((debitUnits (h.setView sp v) sp units).page sp).units = (h.page sp).units - units := by
  have htotal := total_cut hlo hhi
  have hunits : ((debitUnits (h.setView sp v) sp units).page sp).units =
      (h.page sp).units - units := by
    rw [debitUnits_page, Heap.setView_page]
  refine ⟨⟨?_, ?_⟩, hunits⟩
  · rw [debitUnits_view, Heap.setView_view]
    exact hv
  · rw [hunits, hp.units]
    simp only [total_append, total_cons]
    omega

/-- **`slob_page_alloc` is exact first fit** on every page whose free list is in order. -/
theorem first_fit {h : Heap} {sp : Nat} {fl : List Ext} (hp : FreePage h sp fl) (hne : fl ≠ [])
    {size align : Nat} (hpos : 1 ≤ size) (hsize : size ≤ 2 ^ 32 - PAGE_SIZE)
    (halign : AlignOk align) :
    ∃ out h', slobPageAllocInt h sp size align = some (out, h') ∧
      FirstFit h sp fl (SLOB_UNITS size) align out h' := by
  obtain ⟨hunits, hmax⟩ := SLOB_UNITS_bounds hpos hsize
  rw [slobPageAllocInt_eq hmax halign.le_page, slobPageAlloc_settle]
  rcases pageAlloc_spec align hp.free hne hunits with
    ⟨pre, e, post, v, rfl, hpre, hfit, hrun, hfl', -⟩ | ⟨hno, hrun⟩
  · rw [hrun]
    have hmem : e ∈ pre ++ e :: post := by simp
    obtain ⟨hp', hcount⟩ := hp.carve (le_alignUp align e.start) hfit hfl'
    refine ⟨_, _, rfl, iff_of_false nofun fun hno => hno e hmem hfit, nofun, ?_⟩
    rintro b hb
    cases hb
    refine ⟨pre, e, post, rfl, hfit, fun f hf hfits => ?_, rfl, hp'.decoded, hcount⟩
    -- what lies in front has no room, and the rest is in address order
    rcases List.mem_append.mp hf with hf | hf
    · exact absurd hfits (hpre f hf)
    · exact (gapped_append.mp hp.free.gapped).2.1.start_le hf
  · rw [hrun]
    exact ⟨none, h, rfl, iff_of_true rfl hno, fun _ => rfl, nofun⟩

/-- On the page of `closerBehind`, ten units at a multiple of 4 are taken out of the first
block of 50. -/
theorem first_fit_closerBehind : ∃ (s : Sys 1) (fl : List Ext), (machine uniform 1).Reach s ∧
    s.heap.decoded 1 = some fl ∧ ∃ out h', slobPageAllocInt s.heap 1 20 4 = some (out, h') ∧
      FirstFit s.heap 1 fl 10 4 out h' := by
  obtain ⟨s, hs, hlist, hdec, -⟩ := closerBehind_end
  have hok := (reach_sysOk hs).heap
  obtain ⟨c, fl, hp⟩ := hok.pages 1 (hok.of_listed (by rw [hlist]; simp : 1 ∈ s.heap.list .small))
  have hfl := Option.some.inj (hp.decoded.symm.trans hdec)
  exact ⟨s, fl, hs, hp.decoded, first_fit hp.freePage (by rw [hfl]; simp) (by decide) (by decide)
    (.inr ⟨2, by decide, rfl⟩)⟩

/-- **A request for all of memory is served**, where a block has to be rounded up: the
second block of the page has ten units, and the wrapped sum is no more than that. -/
theorem huge_request_served : ∃ (s : Sys 1) (h' : Heap) (fl : List Ext),
    (machine uniform 1).Reach s ∧ FreePage s.heap 1 fl ∧ fl ≠ [] ∧
    slobPageAllocInt s.heap 1 4294967294 4 = some (some 2104, h') ∧
    ¬ FirstFit s.heap 1 fl (SLOB_UNITS 4294967294) 4 (some 2104) h' := by
  have hrun : ((machine uniform 1).replay (boot 1) closerBehind).map (fun s =>
      (s.heap.list .small, (slobPageAllocInt s.heap 1 4294967294 4).map Prod.fst)) =
      some ([1], some (some 2104)) := by
    decide +kernel
  obtain ⟨s, hs, hend⟩ := Option.map_eq_some_iff.mp hrun
  obtain ⟨hlist, halloc⟩ := Prod.mk.inj hend
  obtain ⟨⟨b, h'⟩, halloc, rfl⟩ := Option.map_eq_some_iff.mp halloc
  have hreach := Machine.Reach.replay (.init (booted_boot 1)) hs
  have hok := (reach_sysOk hreach).heap
  have hlisted : 1 ∈ s.heap.list .small := by simp [hlist]
  obtain ⟨c, fl, hp⟩ := hok.pages 1 (hok.of_listed hlisted)
  refine ⟨s, h', fl, hreach, hp.freePage, ((hp.listed _).mp hlisted).1, halloc, fun hfit => ?_⟩
  -- no block of a page is that long
  obtain ⟨pre, e, post, rfl, hfits, -⟩ := hfit.found _ rfl
  have hlen := hfits.len
  have hin := hp.free.inPage e (by simp)
  have hstop := pageStop_eq 1
  have hunits : SLOB_UNITS 4294967294 = 2147483647 := rfl
  unfold InPage Ext.Within Ext.stop at hin
  omega

end OsProjects.Slob
