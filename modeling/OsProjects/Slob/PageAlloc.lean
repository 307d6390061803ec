import OsProjects.Slob.Blocks

/-!
# Allocating from one page's free list

`slob_page_alloc`, lines 226-272, on what it reads and writes of a page: the
page's memory and `sp->freelist` (`View`). The bookkeeping of the descriptor
(`sp->units`, leaving the list when nothing is free) is added in `Heap.lean`.

The loop walks the chain, so its proof splits the free list at the cursor:
`pre` has been passed, `e` is under the cursor, `post` is ahead. A block that
has room is split by `fragmentHead` when its start has to be rounded up, and
`takeFront` then takes the front of what is under the cursor; both leave a
chain behind, and `cut` says which one.
-/

namespace OsProjects.Slob

open Framework

/-- What the free-list code works on: page memory and `sp->freelist`. -/
structure View where
  mem : Mem
  freelist : Nat

/-- `ALIGN((unsigned long)cur, align)` as a `slob_t *`; `cur` when no alignment
is asked for. -/
def alignUp (align cur : Nat) : Nat :=
  if align = 0 then cur
  else (SLOB_UNIT * cur + (align - 1)) / align * align / SLOB_UNIT

/-- `if (prev) set_slob(prev, slob_units(prev), next); else sp->freelist = next;` -/
def linkAfter (v : View) (prev : Option Nat) (next : Nat) : View :=
  match prev with
  | some p => { v with mem := setSlob v.mem p (slobUnits v.mem p) next }
  | none => { v with freelist := next }

/-- Fragment the head of the block at `cur` so that a block starts at
`aligned` (lines 242-244). -/
def fragmentHead (m : Mem) (cur aligned : Nat) : Mem :=
  let delta := aligned - cur
  let next := slobNext m cur
  setSlob (setSlob m aligned ((slobUnits m cur : Int) - delta) next) cur delta aligned

/-- Unlink the block at `cur` on an exact fit, else fragment it (lines
250-262). -/
def takeFront (v : View) (units : Nat) (prev : Option Nat) (cur : Nat) : View :=
  let avail := slobUnits v.mem cur
  let next := slobNext v.mem cur
  if avail = units then linkAfter v prev next
  else
    let v := linkAfter v prev (cur + units)
    { v with mem := setSlob v.mem (cur + units) ((avail : Int) - units) next }

/-- The body of the loop once there is room: fragment for alignment if need
be, then take `units` units from the aligned start. -/
def takeAligned (v : View) (units : Nat) (prev : Option Nat) (cur aligned : Nat) : View :=
  if aligned - cur ≠ 0 then
    takeFront { v with mem := fragmentHead v.mem cur aligned } units (some cur) aligned
  else takeFront v units prev cur

/-- The loop of `slob_page_alloc`. The outer `none` is a walk that does not end
within the fuel; the inner one is the `NULL` of line 270. -/
def pageAllocLoop (v : View) (units align : Nat) :
    Nat → Option Nat → Nat → Option (Option (Nat × View))
  | 0, _, _ => none
  | fuel + 1, prev, cur =>
      let avail := slobUnits v.mem cur
      let aligned := alignUp align cur
      let delta := aligned - cur
      if avail ≥ units + delta then
        some (some (aligned, takeAligned v units prev cur aligned))
      else if slobLast v.mem cur then some none
      else pageAllocLoop v units align fuel (some cur) (slobNext v.mem cur)

/-- `slob_page_alloc` on the view of a page: a page has at most
`SLOB_UNITS PAGE_SIZE` free blocks, so that much fuel is enough. -/
def pageAlloc (v : View) (units align : Nat) : Option (Option (Nat × View)) :=
  pageAllocLoop v units align (SLOB_UNITS PAGE_SIZE) none v.freelist

/-! ## Free lists of a page -/

/-- `fl` is the free list of page `pn` held in the view: address-ordered,
coalesced, inside the page, and chained from `sp->freelist`. -/
structure FreeList (v : View) (pn : Nat) (fl : List Ext) : Prop where
  gapped : Gapped fl
  inPage : ∀ e ∈ fl, InPage pn e
  linked : Linked v.mem (pageStop pn) fl
  head : fl ≠ [] → v.freelist = headOr (pageStop pn) fl

theorem FreeList.laid {v : View} {pn : Nat} {fl : List Ext} (h : FreeList v pn fl) :
    Laid pn fl := laid_of_gapped h.gapped h.inPage

/-- Walking the free list as the code does yields `fl`. -/
theorem FreeList.decode_eq {v : View} {pn : Nat} {fl : List Ext} (h : FreeList v pn fl)
    (hne : fl ≠ []) : decode v.mem (SLOB_UNITS PAGE_SIZE) v.freelist = some fl := by
  have hlen := gapped_length_le h.gapped h.inPage
  rw [h.head hne]
  obtain ⟨e, es, rfl⟩ := List.exists_cons_of_ne_nil hne
  exact decode_of_linked h.laid h.linked hlen

/-- Bytes outside the listed blocks are the same in both memories. -/
def SameOutside (es : List Ext) (m m' : Mem) : Prop :=
  ∀ x, ¬ Covers es (x / 2) → m' x = m x

theorem SameOutside.trans {es : List Ext} {m m' m'' : Mem}
    (h : SameOutside es m m') (h' : SameOutside es m' m'') : SameOutside es m m'' :=
  fun x hx => (h' x hx).trans (h x hx)

theorem SameOutside.mono {es fs : List Ext} {m m' : Mem} (h : SameOutside es m m')
    (hsub : ∀ u, Covers es u → Covers fs u) : SameOutside fs m m' :=
  fun x hx => h x fun hc => hx (hsub _ hc)

theorem sameOutside_setSlob {es : List Ext} {m : Mem} {pn : Nat} {e : Ext} {next : Nat}
    (hs : Slot pn e next) (hsub : ∀ u, e.Has u → Covers es u) :
    SameOutside es m (setSlob m e.start e.len next) := by
  intro x hx
  refine setSlob_frame hs.pos hs.len_le ?_
  have : ¬ e.Has (x / 2) := fun h => hx (hsub _ h)
  unfold Ext.Has Ext.stop at this
  omega

/-- A chain of blocks apart from everything that was written survives. -/
theorem Linked.sameOutside {es fl : List Ext} {m m' : Mem} {tail : Nat}
    (h : Linked m tail fl) (hpos : ∀ e ∈ fl, 0 < e.len)
    (hsame : SameOutside es m m') (hap : ∀ e ∈ fl, ∀ f ∈ es, e.Apart f) :
    Linked m' tail fl := by
  refine h.congr hpos fun e he x h1 h2 => hsame x ?_
  rintro ⟨f, hf, hfx⟩
  refine (hap e he f hf).not_has (u := x / 2) ?_ hfx
  unfold Ext.Has
  omega

/-! ## Relinking the predecessor -/

/-- The cursor's predecessor: the last block passed. -/
def lastStart (pre : List Ext) : Option Nat := pre.getLast?.map Ext.start

@[simp] theorem lastStart_concat (pre : List Ext) (p : Ext) :
    lastStart (pre ++ [p]) = some p.start := by
  simp [lastStart]

/-- **`linkAfter` redirects the end of the passed part of the chain** and
writes nowhere else. -/
theorem linkAfter_spec {v : View} {pn old next : Nat} {pre : List Ext}
    (hlaid : Laid pn pre) (hlink : Linked v.mem old pre)
    (hhead : v.freelist = headOr old pre)
    (hold : pageStart pn < old ∧ old ≤ pageStop pn)
    (hnext : pageStart pn < next ∧ next ≤ pageStop pn) :
    Linked (linkAfter v (lastStart pre) next).mem next pre ∧
      (linkAfter v (lastStart pre) next).freelist = headOr next pre ∧
      SameOutside pre v.mem (linkAfter v (lastStart pre) next).mem := by
  rcases List.eq_nil_or_concat pre with rfl | ⟨xs, p, rfl⟩
  · exact ⟨trivial, rfl, fun _ _ => rfl⟩
  · rw [List.concat_eq_append] at *
    obtain ⟨hxs, hp, hcross⟩ := laid_append.mp hlaid
    obtain ⟨hppos, hpin, -, -⟩ := laid_cons.mp hp
    obtain ⟨hlx, hlp⟩ := linked_append.mp hlink
    have henc : Encoded v.mem p old := hlp.1
    have hunits := henc.slobUnits ⟨hpin, hppos, hold.1, hold.2⟩
    have hslot : Slot pn p next := ⟨hpin, hppos, hnext.1, hnext.2⟩
    rw [lastStart_concat, linkAfter, hunits]
    refine ⟨linked_append.mpr ⟨?_, encoded_setSlob v.mem hslot, trivial⟩, ?_, ?_⟩
    · exact hlx.setSlob hxs.pos hslot fun f hf =>
        Or.inr (hcross f hf p List.mem_cons_self)
    · rw [hhead, headOr_append, headOr_append]
      rfl
    · exact sameOutside_setSlob hslot fun u hu => by simp [hu]

/-! ## Taking the front of the block under the cursor -/

section Take

variable {v : View} {pn units : Nat} {pre post : List Ext} {e : Ext}

/-- Redirecting the predecessor of the block under the cursor, to any address that a
link may hold; without a predecessor only the head of the list is redirected. -/
theorem redirect_spec {next : Nat} (hlaid : Laid pn (pre ++ e :: post))
    (hlink : Linked v.mem (pageStop pn) (pre ++ e :: post))
    (hhead : v.freelist = headOr (pageStop pn) (pre ++ e :: post))
    (hnext : pageStart pn < next ∧ next ≤ pageStop pn) :
    Linked (linkAfter v (lastStart pre) next).mem next pre ∧
      (linkAfter v (lastStart pre) next).freelist = headOr next pre ∧
      SameOutside pre v.mem (linkAfter v (lastStart pre) next).mem := by
  obtain ⟨hpre, hrest, hcross⟩ := laid_append.mp hlaid
  have hein := hrest.inPage e List.mem_cons_self
  rw [headOr_append] at hhead
  cases pre with
  | nil => exact ⟨trivial, rfl, fun _ _ => rfl⟩
  | cons p ps =>
      have hpin := hpre.inPage p List.mem_cons_self
      have hppos := hpre.pos p List.mem_cons_self
      have hpe := hcross p List.mem_cons_self e List.mem_cons_self
      refine linkAfter_spec hpre (linked_append.mp hlink).1 hhead ?_ hnext
      simp only [InPage, Ext.Within, Ext.stop, headOr] at *
      omega

/-- **Unlink or fragment.** The chain afterwards is the old one with the first
`units` units of `e` gone. -/
theorem takeFront_spec (hlaid : Laid pn (pre ++ e :: post))
    (hlink : Linked v.mem (pageStop pn) (pre ++ e :: post))
    (hhead : v.freelist = headOr (pageStop pn) (pre ++ e :: post))
    (hunits : 0 < units) (hroom : units ≤ e.len) :
    let v' := takeFront v units (lastStart pre) e.start
    let fl' := pre ++ (cut e e.start units ++ post)
    Linked v'.mem (pageStop pn) fl' ∧
      (fl' ≠ [] → v'.freelist = headOr (pageStop pn) fl') ∧
      SameOutside (pre ++ e :: post) v.mem v'.mem := by
  obtain ⟨hpre, hrest, hcross⟩ := laid_append.mp hlaid
  obtain ⟨hepos, hein, hafter, hpost⟩ := laid_cons.mp hrest
  obtain ⟨hlpre, hle, hlpost⟩ := linked_append.mp hlink
  have hslot := hrest.slot
  have hpostpre : ∀ f ∈ post, ∀ p ∈ pre, f.Apart p := fun f hf p hp =>
    Or.inr (hcross p hp f (List.mem_cons_of_mem _ hf))
  have hsub : ∀ u, Covers pre u → Covers (pre ++ e :: post) u := by
    intro u hu
    simp [hu]
  simp only [takeFront, hle.slobUnits hslot, hle.slobNext hslot]
  by_cases hfit : e.len = units
  · obtain ⟨h1, h2, h3⟩ := redirect_spec hlaid hlink hhead ⟨hslot.lo, hslot.hi⟩
    have hcut : cut e e.start units = [] := by
      simp [cut, Ext.stop, hfit]
    rw [if_pos hfit, hcut, List.nil_append]
    refine ⟨linked_append.mpr ⟨h1, hlpost.sameOutside hpost.pos h3 hpostpre⟩, ?_,
      h3.mono hsub⟩
    intro _
    rw [h2, headOr_append]
  · have hcut : cut e e.start units = [⟨e.start + units, e.len - units⟩] := by
      have hlt : e.start + units < e.stop := by unfold Ext.stop; omega
      have hlen : e.stop - (e.start + units) = e.len - units := by unfold Ext.stop; omega
      rw [cut, if_neg (Nat.lt_irrefl _), if_pos hlt, hlen, List.nil_append]
    have hrslot : Slot pn ⟨e.start + units, e.len - units⟩ (headOr (pageStop pn) post) := by
      refine ⟨hein.of_within ?_ ?_, ?_, hslot.lo, hslot.hi⟩ <;>
        simp only [Ext.stop] <;> omega
    have hcast : (e.len : Int) - units = ((e.len - units : Nat) : Int) := by omega
    have hnext : pageStart pn < e.start + units ∧ e.start + units ≤ pageStop pn := by
      unfold InPage Ext.Within Ext.stop at hein
      omega
    obtain ⟨h1, h2, h3⟩ := redirect_spec hlaid hlink hhead hnext
    rw [if_neg hfit, hcut, hcast]
    refine ⟨linked_append.mpr ⟨?_, ?_, ?_⟩, ?_, ?_⟩
    · refine h1.setSlob (e := ⟨e.start + units, e.len - units⟩) hpre.pos hrslot ?_
      intro f hf
      have := hcross f hf e List.mem_cons_self
      simp only [Ext.Apart, Ext.stop] at *
      omega
    · exact encoded_setSlob (e := ⟨e.start + units, e.len - units⟩) _ hrslot
    · refine (hlpost.sameOutside hpost.pos h3 hpostpre).setSlob
        (e := ⟨e.start + units, e.len - units⟩) hpost.pos hrslot ?_
      intro f hf
      have := hafter f hf
      simp only [Ext.Apart, Ext.stop] at *
      omega
    · intro _
      rw [h2, headOr_append]
      rfl
    · refine (h3.mono hsub).trans
        (sameOutside_setSlob (e := ⟨e.start + units, e.len - units⟩) hrslot ?_)
      intro u hu
      simp only [covers_append, covers_cons, Ext.Has, Ext.stop] at *
      omega

/-- The block under the cursor in two parts. -/
theorem laid_split {aligned : Nat} (hlaid : Laid pn (pre ++ e :: post))
    (hlo : e.start < aligned) (hhi : aligned < e.stop) :
    Laid pn (pre ++ ⟨e.start, aligned - e.start⟩ :: ⟨aligned, e.stop - aligned⟩ :: post) := by
  obtain ⟨hpre, hrest, hcross⟩ := laid_append.mp hlaid
  obtain ⟨-, hein, hafter, hpost⟩ := laid_cons.mp hrest
  unfold Ext.stop at hhi
  have hfront : InPage pn ⟨e.start, aligned - e.start⟩ :=
    hein.of_within (Nat.le_refl _) (by simp only [Ext.stop]; omega)
  have hback : InPage pn ⟨aligned, e.stop - aligned⟩ :=
    hein.of_within (Nat.le_of_lt hlo) (by simp only [Ext.stop]; omega)
  have hbehind : ∀ f ∈ (⟨aligned, e.stop - aligned⟩ : Ext) :: post,
      e.start + (aligned - e.start) ≤ f.start := by
    intro f hf
    rcases List.mem_cons.mp hf with rfl | hf
    · simp only
      omega
    · have := hafter f hf
      unfold Ext.stop at this
      omega
  refine laid_append.mpr ⟨hpre, laid_cons.mpr ⟨Nat.sub_pos_of_lt hlo, hfront, hbehind,
    laid_cons.mpr ⟨Nat.sub_pos_of_lt hhi, hback, fun f hf => ?_, hpost⟩⟩, fun p hp f hf => ?_⟩
  · have := hafter f hf
    simp only [Ext.stop] at *
    omega
  · have hpe := hcross p hp e List.mem_cons_self
    rcases List.mem_cons.mp hf with rfl | hf
    · exact hpe
    · have := hbehind f hf
      omega

/-- Fragmenting the head splits the block under the cursor in two. -/
theorem fragmentHead_spec {aligned : Nat} (hlaid : Laid pn (pre ++ e :: post))
    (hlink : Linked v.mem (pageStop pn) (pre ++ e :: post))
    (hlo : e.start < aligned) (hhi : aligned < e.stop) :
    let f : Ext := ⟨e.start, aligned - e.start⟩
    let g : Ext := ⟨aligned, e.stop - aligned⟩
    Laid pn ((pre ++ [f]) ++ g :: post) ∧
      Linked (fragmentHead v.mem e.start aligned) (pageStop pn) ((pre ++ [f]) ++ g :: post) ∧
      SameOutside (pre ++ e :: post) v.mem (fragmentHead v.mem e.start aligned) := by
  intro f g
  obtain ⟨hpre, hrest, hcross⟩ := laid_append.mp hlaid
  obtain ⟨hepos, hein, hafter, hpost⟩ := laid_cons.mp hrest
  obtain ⟨hlpre, hle, hlpost⟩ := linked_append.mp hlink
  have hslot := hrest.slot
  have hlaid' : Laid pn (pre ++ f :: g :: post) := laid_split hlaid hlo hhi
  have hgs : Slot pn g (headOr (pageStop pn) post) :=
    (laid_cons.mp (laid_append.mp hlaid').2.1).2.2.2.slot
  have hfs : Slot pn f aligned := (laid_append.mp hlaid').2.1.slot
  have hfg : f.Apart g := Or.inl (by simp only [f, g, Ext.stop]; omega)
  have hcast : (e.len : Int) - ((aligned - e.start : Nat) : Int) = (g.len : Nat) := by
    simp only [g, Ext.stop] at *
    omega
  have hmem : fragmentHead v.mem e.start aligned =
      setSlob (setSlob v.mem g.start g.len (headOr (pageStop pn) post))
        f.start f.len aligned := by
    simp only [fragmentHead, hle.slobUnits hslot, hle.slobNext hslot, hcast]
    rfl
  rw [hmem, List.append_assoc, List.singleton_append]
  refine ⟨hlaid', linked_append.mpr ⟨?_, ?_, ?_, ?_⟩, ?_⟩
  · refine (hlpre.setSlob hpre.pos hgs ?_).setSlob hpre.pos hfs ?_
    · intro p hp
      exact Or.inr ((laid_append.mp hlaid').2.2 p hp g (by simp))
    · intro p hp
      exact Or.inr ((laid_append.mp hlaid').2.2 p hp f (by simp))
  · exact encoded_setSlob _ hfs
  · exact (encoded_setSlob _ hgs).setSlob hgs.pos hfs hfg
  · refine (hlpost.setSlob hpost.pos hgs ?_).setSlob hpost.pos hfs ?_
    · intro h hh
      have := hafter h hh
      exact Or.inl (by simp only [g, Ext.stop] at *; omega)
    · intro h hh
      have := hafter h hh
      exact Or.inl (by simp only [f, Ext.stop] at *; omega)
  · refine (sameOutside_setSlob hgs ?_).trans (sameOutside_setSlob hfs ?_) <;>
      intro u hu <;> simp only [covers_append, covers_cons, f, g, Ext.Has, Ext.stop] at * <;>
      omega

/-- Taking `units` units at the rounded-up start `a` of the block under the
cursor leaves the chain without them. -/
theorem takeAligned_spec {a : Nat} (hfl : FreeList v pn (pre ++ e :: post))
    (hunits : 0 < units) (hlo : e.start ≤ a) (hroom : a + units ≤ e.stop) :
    FreeList (takeAligned v units (lastStart pre) e.start a) pn
        (pre ++ (cut e a units ++ post)) ∧
      SameOutside (pre ++ e :: post) v.mem
        (takeAligned v units (lastStart pre) e.start a).mem := by
  have hne : pre ++ e :: post ≠ [] := by simp
  have hgap := hfl.gapped.cut hlo hunits hroom
  have hin : ∀ f ∈ pre ++ (cut e a units ++ post), InPage pn f := by
    have hcov := hfl.inPage
    intro f hf
    rcases List.mem_append.mp hf with hf | hf
    · exact hcov f (List.mem_append_left _ hf)
    · rcases List.mem_append.mp hf with hf | hf
      · obtain ⟨h1, h2⟩ := mem_cut_within hlo hroom hf
        exact (hcov e (by simp)).of_within h1 h2
      · exact hcov f (by simp [hf])
  rcases Nat.eq_or_lt_of_le hlo with rfl | hlt
  · rw [takeAligned, if_neg (by omega)]
    obtain ⟨h1, h2, h3⟩ := takeFront_spec hfl.laid hfl.linked (hfl.head hne) hunits
      (by unfold Ext.stop at hroom; omega)
    exact ⟨⟨hgap, hin, h1, h2⟩, h3⟩
  · rw [takeAligned, if_pos (by omega)]
    obtain ⟨hl, hk, hs⟩ := fragmentHead_spec (v := v) hfl.laid hfl.linked hlt
      (by omega)
    have hhead : v.freelist = headOr (pageStop pn)
        ((pre ++ [⟨e.start, a - e.start⟩]) ++ (⟨a, e.stop - a⟩ : Ext) :: post) := by
      rw [hfl.head hne, List.append_assoc, headOr_append, headOr_append]
      rfl
    have htake := takeFront_spec (v := { v with mem := fragmentHead v.mem e.start a })
      hl hk hhead hunits (by simp only; omega)
    have hcut : cut e a units = ⟨e.start, a - e.start⟩ :: cut ⟨a, e.stop - a⟩ a units := by
      have hend : (⟨a, e.stop - a⟩ : Ext).stop = e.stop := by
        simp only [Ext.stop] at *
        omega
      rw [cut, cut, if_pos hlt, if_neg (Nat.lt_irrefl _), hend]
      rfl
    rw [lastStart_concat] at htake
    obtain ⟨h1, h2, h3⟩ := htake
    rw [hcut] at hgap hin ⊢
    rw [List.append_assoc, List.singleton_append] at h1 h2
    refine ⟨⟨hgap, hin, h1, h2⟩, hs.trans (h3.mono ?_)⟩
    intro u hu
    simp only [covers_append, covers_cons, covers_nil, or_false] at hu ⊢
    rcases hu with (hu | hu) | hu | hu
    · exact Or.inl hu
    all_goals simp only [Ext.Has, Ext.stop] at *
    · exact Or.inr (Or.inl (by omega))
    · exact Or.inr (Or.inl (by omega))
    · exact Or.inr (Or.inr hu)

end Take

/-! ## Rounding up to an alignment -/

theorem le_alignUp (align cur : Nat) : cur ≤ alignUp align cur := by
  unfold alignUp SLOB_UNIT
  split
  · exact Nat.le_refl _
  · have h1 := Nat.div_add_mod (2 * cur + (align - 1)) align
    have h2 := Nat.mod_lt (2 * cur + (align - 1)) (Nat.pos_of_ne_zero ‹_›)
    rw [Nat.mul_comm] at h1
    omega

/-- The rounded-up byte address is a multiple of the alignment, which is one
or even. -/
theorem dvd_alignUp {align : Nat} (h0 : align ≠ 0) (heven : align = 1 ∨ 2 ∣ align)
    (cur : Nat) : align ∣ SLOB_UNIT * alignUp align cur := by
  unfold alignUp SLOB_UNIT
  rw [if_neg h0]
  rcases heven with rfl | heven
  · exact Nat.one_dvd _
  · have : 2 ∣ (2 * cur + (align - 1)) / align * align := Dvd.dvd.mul_left heven _
    rw [Nat.mul_div_cancel' this]
    exact Nat.dvd_mul_left _ _

theorem alignUp_of_dvd {align cur : Nat} (h : align = 0 ∨ align ∣ SLOB_UNIT * cur) :
    alignUp align cur = cur := by
  unfold alignUp SLOB_UNIT at *
  split
  · rfl
  · rename_i h0
    obtain ⟨k, hk⟩ := h.resolve_left h0
    have hlt : align - 1 < align := by omega
    rw [hk, Nat.mul_add_div (Nat.pos_of_ne_zero h0), Nat.div_eq_of_lt hlt, Nat.add_zero,
      Nat.mul_comm, ← hk]
    omega

/-! ## The search -/

/-- There is room for `units` units in `e` after rounding its start up. -/
def Fits (align units : Nat) (e : Ext) : Prop := alignUp align e.start + units ≤ e.stop

/-- The loop stops at the first block with room, or runs off the chain. The
induction is on what lies ahead of the cursor. -/
theorem pageAllocLoop_spec {v : View} {pn : Nat} (units align : Nat) :
    ∀ {post : List Ext} (pre : List Ext) {e : Ext} (fuel : Nat),
    FreeList v pn (pre ++ e :: post) → post.length < fuel →
    (∃ xs f ys, e :: post = xs ++ f :: ys ∧ (∀ x ∈ xs, ¬ Fits align units x) ∧
      Fits align units f ∧
      pageAllocLoop v units align fuel (lastStart pre) e.start =
        some (some (alignUp align f.start, takeAligned v units
          (lastStart (pre ++ xs)) f.start (alignUp align f.start)))) ∨
    ((∀ x ∈ e :: post, ¬ Fits align units x) ∧
      pageAllocLoop v units align fuel (lastStart pre) e.start = some none)
  | _, _, _, 0, _, h => absurd h (Nat.not_lt_zero _)
  | post, pre, e, fuel + 1, hfl, hlen => by
      obtain ⟨-, hrest, -⟩ := laid_append.mp hfl.laid
      obtain ⟨-, henc, -⟩ := linked_append.mp hfl.linked
      have hslot := hrest.slot
      have hle := le_alignUp align e.start
      have hroom : Fits align units e ↔
          e.len ≥ units + (alignUp align e.start - e.start) := by
        unfold Fits Ext.stop
        omega
      simp only [pageAllocLoop, henc.slobUnits hslot, henc.slobNext hslot]
      by_cases hfit : Fits align units e
      · refine Or.inl ⟨[], e, post, rfl, by simp, hfit, ?_⟩
        rw [if_pos (hroom.mp hfit), List.append_nil]
      · rw [if_neg (mt hroom.mpr hfit)]
        cases post with
        | nil =>
            refine Or.inr ⟨by simpa using hfit, ?_⟩
            rw [if_pos ((henc.slobLast hslot).mpr rfl)]
        | cons f fs =>
            have hnot : ¬ slobLast v.mem e.start = true := by
              rw [henc.slobLast hslot]
              obtain ⟨hfpos, hfin, -, -⟩ := laid_cons.mp (laid_cons.mp hrest).2.2.2
              simp only [headOr, InPage, Ext.Within, Ext.stop] at *
              omega
            rw [if_neg hnot]
            have hfl' : FreeList v pn ((pre ++ [e]) ++ f :: fs) := by
              rw [List.append_assoc]
              exact hfl
            have ih := pageAllocLoop_spec units align _ fuel hfl'
              (Nat.lt_of_succ_lt_succ hlen)
            rw [lastStart_concat] at ih
            rcases ih with ⟨xs, g, ys, heq, hno, hyes, hres⟩ | ⟨hno, hres⟩
            · refine Or.inl ⟨e :: xs, g, ys, by rw [heq]; rfl, ?_, hyes, ?_⟩
              · intro x hx
                rcases List.mem_cons.mp hx with rfl | hx
                · exact hfit
                · exact hno x hx
              · rw [List.append_assoc] at hres
                exact hres
            · refine Or.inr ⟨?_, hres⟩
              intro x hx
              rcases List.mem_cons.mp hx with rfl | hx
              · exact hfit
              · exact hno x hx

/-- **First fit within a page.** Either no free block has room and the answer
is `NULL`, or the lowest one with room loses exactly the units handed out. -/
theorem pageAlloc_spec {v : View} {pn units : Nat} (align : Nat) {fl : List Ext}
    (hfl : FreeList v pn fl) (hne : fl ≠ []) (hunits : 0 < units) :
    (∃ pre e post v', fl = pre ++ e :: post ∧ (∀ x ∈ pre, ¬ Fits align units x) ∧
      Fits align units e ∧
      pageAlloc v units align = some (some (alignUp align e.start, v')) ∧
      FreeList v' pn (pre ++ (cut e (alignUp align e.start) units ++ post)) ∧
      SameOutside fl v.mem v'.mem) ∨
    ((∀ x ∈ fl, ¬ Fits align units x) ∧ pageAlloc v units align = some none) := by
  obtain ⟨e, es, rfl⟩ := List.exists_cons_of_ne_nil hne
  have hlen := gapped_length_le hfl.gapped hfl.inPage
  have hloop := pageAllocLoop_spec units align [] (SLOB_UNITS PAGE_SIZE) hfl hlen
  have hhead : v.freelist = e.start := hfl.head hne
  rw [pageAlloc, hhead]
  rcases hloop with ⟨xs, f, ys, heq, hno, hyes, hres⟩ | hnone
  · rw [heq] at hfl ⊢
    obtain ⟨h1, h2⟩ := takeAligned_spec hfl hunits (le_alignUp align f.start) hyes
    exact Or.inl ⟨xs, f, ys, _, rfl, hno, hyes, hres, h1, h2⟩
  · exact Or.inr hnone

end OsProjects.Slob
