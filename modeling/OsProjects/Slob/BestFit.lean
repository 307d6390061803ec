import OsProjects.Slob.Canonical

/-!
# Which page and which block `slob_alloc` takes

The scan over a list keeps the page with the fewest free units among those with
enough of them in total, the first one of several (`scanPages_eq`); then
`slob_page_alloc` takes the first free block on that page with room
(`slobPageAlloc_find`). No other page is tried, and no other block.

So the search may come back empty-handed although another page has room
(`new_page_iff`), and what it takes need not be the closest fit
(`closest_fit_iff`): both hold exactly as far as the one page, and the first
block on it, speak for all pages of the list.

The units of a page are an `int` that is compared with an unsigned number. A negative
one would be taken for more than any request asks for (`finds_fewest_iff`).
-/

namespace OsProjects.Slob

open Framework

instance (align units : Nat) (e : Ext) : Decidable (Fits align units e) :=
  inferInstanceAs (Decidable (_ ≤ _))

/-! ## The page -/

section Page

variable (cfg : Config) (h : Heap) (size : Nat) (node : Int)

/-- The pages the scan considers. -/
def candidates : List Nat := (h.list (slobListOf size)).filter (roomy cfg h size node)

/-- The first page with the fewest units among the candidates and what `sp_alt`
holds at first. -/
noncomputable def bestPage (spAlt : Option Nat) : Option Nat :=
  (spAlt.toList ++ candidates cfg h size node).argmin fun sp => (h.page sp).units

variable {cfg h size node}

theorem mem_candidates {sp : Nat} :
    sp ∈ candidates cfg h size node ↔ sp ∈ h.list (slobListOf size) ∧
      cfg.skips node sp = false ∧ SLOB_UNITS size ≤ toUnsigned (h.page sp).units := by
  simp [candidates, roomy]

theorem bestPage_mem {sp : Nat} (hsp : bestPage cfg h size node none = some sp) :
    sp ∈ candidates cfg h size node :=
  List.argmin_mem hsp

end Page

/-! ## The scan and the numbers it compares

`sp->units` is an `int` and `SLOB_UNITS(size)` is not, so that the test for room takes
a negative count for a huge one; the running minimum compares two `int`s. -/

section Scan

variable (cfg : Config) (h : Heap) (size : Nat) (node : Int) (sps : List Nat)

/-- A page of the node asked for, if any, with at least the units asked for. -/
def Admissible (sp : Nat) : Prop :=
  cfg.skips node sp = false ∧ (SLOB_UNITS size : Int) ≤ (h.page sp).units

/-- From `NULL`, the scan ends at the first of the admissible pages with the fewest
units, and at `NULL` if there is none. -/
structure FindsFewest : Prop where
  null : scanPages cfg h size node sps none = none ↔ ∀ sp ∈ sps, ¬ Admissible cfg h size node sp
  first : ∀ sp, scanPages cfg h size node sps none = some sp →
    Admissible cfg h size node sp ∧
    (∀ q ∈ sps, Admissible cfg h size node q → (h.page sp).units ≤ (h.page q).units) ∧
    ∃ before after, sps = before ++ sp :: after ∧
      ∀ q ∈ before, Admissible cfg h size node q → (h.page sp).units < (h.page q).units

variable {cfg h size node sps}

theorem SLOB_UNITS_lt (size : Nat) : SLOB_UNITS size < 2 ^ 31 := by
  unfold SLOB_UNITS SLOB_UNIT
  omega

/-- The test is about the number itself where it is not negative. -/
theorem roomy_iff {sp : Nat} (hmax : (h.page sp).units < 2 ^ 31) (hpos : 0 ≤ (h.page sp).units) :
    roomy cfg h size node sp = true ↔ Admissible cfg h size node sp := by
  obtain ⟨u, hu⟩ := Int.eq_ofNat_of_zero_le hpos
  have hsame : toUnsigned (h.page sp).units = u := by
    rw [hu]
    exact toUnsigned_natCast (by omega)
  rw [roomy, Bool.and_eq_true, Bool.not_eq_true', decide_eq_true_eq, Admissible, hsame, hu,
    Int.ofNat_le]

/-- A negative count passes for any size. -/
theorem roomy_of_neg {sp : Nat} (hskip : cfg.skips node sp = false)
    (hmin : -2 ^ 31 ≤ (h.page sp).units) (hneg : (h.page sp).units < 0) :
    roomy cfg h size node sp = true := by
  have hbig : 2 ^ 31 ≤ toUnsigned (h.page sp).units := by
    unfold toUnsigned
    omega
  have hlt := SLOB_UNITS_lt size
  rw [roomy, hskip, Bool.not_false, Bool.true_and, decide_eq_true_eq]
  omega

/-- Where the first of several smallest ones is, in the unfiltered list. -/
theorem argmin_filter_split {α : Type} [DecidableEq α] {f : α → Int} {p : α → Bool} {xs : List α}
    {m : α} (hm : (xs.filter p).argmin f = some m) :
    ∃ before after, xs = before ++ m :: after ∧ ∀ q ∈ before, p q = true → f m < f q := by
  obtain ⟨hin, -, hfirst⟩ := List.argmin_eq_some_iff.mp hm
  have hpm : p m = true := (List.mem_filter.mp hin).2
  obtain ⟨before, after, rfl, hnot⟩ := List.eq_append_cons_of_mem (List.mem_of_mem_filter hin)
  refine ⟨before, after, rfl, fun q hq hpq => ?_⟩
  rw [List.filter_append, List.filter_cons_of_pos hpm] at hin hfirst
  have hq' : q ∈ before.filter p := List.mem_filter.mpr ⟨hq, hpq⟩
  have hnot' : m ∉ before.filter p := fun hmem => hnot (List.mem_of_mem_filter hmem)
  by_contra hle
  -- a page no larger than `m` comes no earlier
  have hidx := hfirst q (List.mem_append_left _ hq') (not_lt.mp hle)
  rw [List.idxOf_append_of_mem hq', List.idxOf_append_of_notMem hnot'] at hidx
  have hlt := List.idxOf_lt_length_iff.mpr hq'
  omega

/-- **The scan is exact on counts that are not negative**, and on no others. -/
theorem finds_fewest_iff
    (hint : ∀ sp ∈ sps, -2 ^ 31 ≤ (h.page sp).units ∧ (h.page sp).units < 2 ^ 31) :
    FindsFewest cfg h size node sps ↔
      ∀ sp ∈ sps, cfg.skips node sp = false → 0 ≤ (h.page sp).units := by
  have hscan : scanPages cfg h size node sps none =
      (sps.filter (roomy cfg h size node)).argmin fun sp => (h.page sp).units :=
    scanPages_eq cfg h size node sps none
  constructor
  · intro hfew sp hsp hskip
    by_contra hneg
    have hmem : sp ∈ sps.filter (roomy cfg h size node) :=
      List.mem_filter.mpr ⟨hsp, roomy_of_neg hskip (hint sp hsp).1 (not_le.mp hneg)⟩
    cases hm : (sps.filter (roomy cfg h size node)).argmin fun sp => (h.page sp).units with
    | none =>
        rw [List.argmin_eq_none.mp hm] at hmem
        cases hmem
    | some m =>
        -- what the scan ends at has no more units than this page
        have hle := List.le_of_mem_argmin hmem hm
        obtain ⟨⟨-, hunits⟩, -⟩ := hfew.first m (hscan.trans hm)
        omega
  · intro hpos
    have hroomy : ∀ sp ∈ sps, roomy cfg h size node sp = true ↔ Admissible cfg h size node sp := by
      intro sp hsp
      by_cases hskip : cfg.skips node sp = true
      · simp [roomy, Admissible, hskip]
      · exact roomy_iff (hint sp hsp).2 (hpos sp hsp (Bool.eq_false_of_not_eq_true hskip))
    refine ⟨?_, fun m hm => ?_⟩
    · rw [hscan, List.argmin_eq_none, List.filter_eq_nil_iff]
      exact forall₂_congr fun sp hsp => not_congr (hroomy sp hsp)
    · rw [hscan] at hm
      have hin := List.mem_filter.mp (List.argmin_mem hm)
      refine ⟨(hroomy m hin.1).mp hin.2, fun q hq hadm => ?_, ?_⟩
      · have hq' : q ∈ sps.filter (roomy cfg h size node) :=
          List.mem_filter.mpr ⟨hq, (hroomy q hq).mpr hadm⟩
        have hle := List.le_of_mem_argmin hq' hm
        exact hle
      · obtain ⟨before, after, hsplit, hfirst⟩ := argmin_filter_split hm
        refine ⟨before, after, hsplit, fun q hq hadm => hfirst q hq ((hroomy q ?_).mpr hadm)⟩
        rw [hsplit]
        exact List.mem_append_left _ hq

end Scan

/-- A heap of which only the counts of the pages matter. -/
def counted (units : Nat → Int) : Heap :=
  ⟨fun _ => 0, fun sp => ⟨units sp, 0, true, true⟩, fun _ => [], 0, 0, 0, 0⟩

/-- Of the pages with 9, 2, 7, 5 and 5 units, the fourth is taken for ten bytes. -/
theorem finds_fewest_five :
    let h := counted fun sp => [9, 2, 7, 5, 5].getD sp 0
    FindsFewest uniform h 10 noNode [0, 1, 2, 3, 4] ∧
      scanPages uniform h 10 noNode [0, 1, 2, 3, 4] none = some 3 :=
  ⟨(finds_fewest_iff (by decide)).mpr (by decide), by decide⟩

/-- **A count below zero is taken for room**: the only page has -1 units, and the scan
ends at it. -/
theorem negative_count_found :
    let h := counted fun _ => -1
    scanPages uniform h 10 noNode [1] none = some 1 ∧ ¬ Admissible uniform h 10 noNode 1 ∧
      ¬ FindsFewest uniform h 10 noNode [1] := by
  intro h
  have hscan : scanPages uniform h 10 noNode [1] none = some 1 := by decide
  have hnot : ¬ Admissible uniform h 10 noNode 1 := by
    rintro ⟨-, hunits⟩
    exact absurd hunits (by decide)
  exact ⟨hscan, hnot, fun hfew => hnot (hfew.first 1 hscan).1⟩

/-! ## The block -/

/-- **`slob_page_alloc` takes the first free block with room.** -/
theorem slobPageAlloc_find {h : Heap} {sp size : Nat} {fl : List Ext} (align : Nat)
    (hfl : FreeList (h.view sp) sp fl) (hne : fl ≠ []) (hunits : 0 < SLOB_UNITS size) :
    (slobPageAlloc h sp size align).map Prod.fst =
      some ((fl.find? fun e => Fits align (SLOB_UNITS size) e).map fun e =>
        alignUp align e.start) := by
  rcases pageAlloc_spec align hfl hne hunits with
    ⟨pre, e, post, v, rfl, hpre, hfit, hrun, -, -⟩ | ⟨hno, hrun⟩
  · have hfind : (pre ++ e :: post).find? (fun e => Fits align (SLOB_UNITS size) e) = some e := by
      rw [List.find?_append, List.find?_eq_none.mpr (by simpa using hpre), Option.none_or,
        List.find?_cons_of_pos (by simpa using hfit)]
    rw [slobPageAlloc, hrun, hfind]
    rfl
  · have hfind : fl.find? (fun e => Fits align (SLOB_UNITS size) e) = none :=
      List.find?_eq_none.mpr (by simpa using hno)
    rw [slobPageAlloc, hrun, hfind]
    rfl

/-- When it fails it has changed nothing. -/
theorem slobPageAlloc_null {h h' : Heap} {sp size align : Nat}
    (hrun : slobPageAlloc h sp size align = some (none, h')) : h' = h := by
  unfold slobPageAlloc at hrun
  split at hrun
  · cases hrun
  · cases hrun
    rfl
  · cases hrun

/-- What is done with the page that was scanned for. -/
def tryPage (h : Heap) (size align : Nat) : Option Nat → Option (Option Nat × Heap)
  | none => some (none, h)
  | some sp => slobPageAlloc h sp size align

section Search

variable {cfg : Config} {h h' : Heap} {L : Ledger} {size align : Nat} {node : Int}
  {spAlt : Option Nat}

/-- **The search section tries the best page**, and counts what is left free. -/
theorem slobAllocSearch_eq :
    slobAllocSearch cfg h size align node spAlt =
      (tryPage { h with free := 0 } size align (bestPage cfg h size node spAlt)).map
        (Prod.map id recountFree) := by
  have hscan : scanPages cfg { h with free := 0 } size node (h.list (slobListOf size)) spAlt =
      bestPage cfg h size node spAlt := scanPages_eq cfg _ size node _ spAlt
  unfold slobAllocSearch
  dsimp only
  rw [hscan]
  cases bestPage cfg h size node spAlt with
  | none => rfl
  | some sp =>
      dsimp only [tryPage]
      cases slobPageAlloc { h with free := 0 } sp size align <;> rfl

/-- With no page to try, the search returns `NULL`. -/
theorem slobAllocSearch_noPage (hbest : bestPage cfg h size node spAlt = none) :
    slobAllocSearch cfg h size align node spAlt =
      some (none, recountFree { h with free := 0 }) := by
  rw [slobAllocSearch_eq, hbest]
  rfl

/-- A search that finds nothing only counts the free units anew. -/
theorem slobAllocSearch_null
    (hrun : slobAllocSearch cfg h size align node spAlt = some (none, h')) :
    h' = recountFree { h with free := 0 } := by
  cases hbest : bestPage cfg h size node spAlt with
  | none =>
      rw [slobAllocSearch_noPage hbest] at hrun
      cases hrun
      rfl
  | some sp =>
      rw [slobAllocSearch_eq, hbest] at hrun
      obtain ⟨⟨b, h1⟩, hattempt, hout⟩ := Option.map_eq_some_iff.mp hrun
      obtain ⟨rfl, rfl⟩ := Prod.mk.inj hout
      rw [slobPageAlloc_null hattempt]

/-- What the search returns, from the free list of the page it tries. -/
theorem slobAllocSearch_find (hok : HeapOk h L) (hsize : SizeOk size) {sp : Nat}
    (hbest : bestPage cfg h size node spAlt = some sp) (hlisted : sp ∈ h.list (slobListOf size)) :
    ∃ fl, h.decoded sp = some fl ∧
      (slobAllocSearch cfg h size align node spAlt).map Prod.fst =
        some ((fl.find? fun e => Fits align (SLOB_UNITS size) e).map fun e =>
          alignUp align e.start) := by
  obtain ⟨c, fl, hp⟩ := hok.pages sp (hok.of_listed hlisted)
  have hne : fl ≠ [] := ((hp.listed _).mp hlisted).1
  have hfind := slobPageAlloc_find (h := { h with free := 0 }) align hp.free hne
    (SLOB_UNITS_pos hsize.1 hsize.2)
  refine ⟨fl, hp.decoded, ?_⟩
  rw [slobAllocSearch_eq, hbest, Option.map_map]
  exact hfind

end Search

/-! ## Room on the list -/

/-- `e` is a free block of page `sp` with room for the request. -/
def RoomOn (h : Heap) (req : Request) (sp : Nat) (e : Ext) : Prop :=
  ∃ fl, h.decoded sp = some fl ∧ e ∈ fl ∧ Fits req.align (SLOB_UNITS req.size) e

/-- A block the request could be cut from: on a page of its list, and of its node. -/
structure Fitting (cfg : Config) (h : Heap) (req : Request) (sp : Nat) (e : Ext) : Prop where
  listed : sp ∈ h.list (slobListOf req.size)
  node : cfg.skips req.node sp = false
  room : RoomOn h req sp e

/-- The first block with room on the best page. -/
def FirstRoom (cfg : Config) (h : Heap) (req : Request) (sp : Nat) (e : Ext) : Prop :=
  bestPage cfg h req.size req.node none = some sp ∧ ∃ fl, h.decoded sp = some fl ∧
    (fl.find? fun e => Fits req.align (SLOB_UNITS req.size) e) = some e

section Room

variable {cfg : Config} {h : Heap} {L : Ledger} {req : Request} {sp sp' : Nat} {e f : Ext}

theorem Fits.len {align units : Nat} (h : Fits align units e) : units ≤ e.len := by
  have hle := le_alignUp align e.start
  unfold Fits Ext.stop at h
  omega

theorem Fits.has {align units : Nat} (h : Fits align units e) (hunits : 0 < units) :
    e.Has (alignUp align e.start) := by
  have hle := le_alignUp align e.start
  unfold Fits at h
  exact ⟨hle, by omega⟩

/-- A listed page counts what is free on it. -/
theorem HeapOk.page_listed (hok : HeapOk h L) (hsp : sp ∈ h.list (slobListOf req.size)) :
    ∃ fl, h.decoded sp = some fl ∧ Gapped fl ∧ (∀ e ∈ fl, InPage sp e) ∧
      toUnsigned (h.page sp).units = total fl := by
  obtain ⟨c, fl, hp⟩ := hok.pages sp (hok.of_listed hsp)
  have htotal := hp.tiled.total_add
  refine ⟨fl, hp.decoded, hp.tiled.gapped, hp.tiled.freeIn, ?_⟩
  rw [hp.units]
  exact toUnsigned_natCast (by omega)

/-- Where there is room there are enough units. -/
theorem Fitting.candidate (hok : HeapOk h L) (hf : Fitting cfg h req sp e) :
    sp ∈ candidates cfg h req.size req.node := by
  obtain ⟨fl, hdec, hmem, hfits⟩ := hf.room
  obtain ⟨fl', hdec', -, -, hunits⟩ := hok.page_listed hf.listed
  obtain rfl : fl = fl' := Option.some.inj (hdec.symm.trans hdec')
  have hlen : e.len ≤ total fl := List.le_sum_of_mem (List.mem_map_of_mem hmem)
  rw [mem_candidates, hunits]
  exact ⟨hf.listed, hf.node, hfits.len.trans hlen⟩

/-- Free blocks with a unit in common are one block. -/
theorem Fitting.unique (hok : HeapOk h L) (he : Fitting cfg h req sp e)
    (hf : Fitting cfg h req sp' f) {u : Nat} (heu : e.Has u) (hfu : f.Has u) : e = f := by
  obtain ⟨fl, hdec, hmem, -⟩ := he.room
  obtain ⟨fl', hdec', hmem', -⟩ := hf.room
  obtain ⟨xs, hxs, hgapped, hin, -⟩ := hok.page_listed he.listed
  obtain ⟨ys, hys, -, hin', -⟩ := hok.page_listed hf.listed
  obtain rfl : fl = xs := Option.some.inj (hdec.symm.trans hxs)
  obtain rfl : fl' = ys := Option.some.inj (hdec'.symm.trans hys)
  -- the unit tells the page
  obtain ⟨hlo, hhi⟩ := (hin e hmem).bounds heu
  obtain ⟨hlo', hhi'⟩ := (hin' f hmem').bounds hfu
  obtain rfl : sp = sp' :=
    (virtToPage_of_bounds hlo hhi).symm.trans (virtToPage_of_bounds hlo' hhi')
  obtain rfl : fl = fl' := Option.some.inj (hdec.symm.trans hdec')
  by_contra hne
  have hsymm : Std.Symm Ext.Apart := ⟨fun _ _ h => h.symm⟩
  exact (hgapped.apart.forall hmem hmem' hne).not_has heu hfu

theorem FirstRoom.fitting (hr : FirstRoom cfg h req sp e) : Fitting cfg h req sp e := by
  obtain ⟨hbest, fl, hdec, hfind⟩ := hr
  obtain ⟨hlisted, hnode, -⟩ := mem_candidates.mp (bestPage_mem hbest)
  exact ⟨hlisted, hnode, fl, hdec, List.mem_of_find?_eq_some hfind,
    by simpa using List.find?_some hfind⟩

theorem firstRoom_iff (hbest : bestPage cfg h req.size req.node none = some sp) :
    (∃ e, FirstRoom cfg h req sp e) ↔ ∃ e, Fitting cfg h req sp e := by
  constructor
  · rintro ⟨e, hr⟩
    exact ⟨e, hr.fitting⟩
  · rintro ⟨e, hlisted, hnode, fl, hdec, hmem, hfits⟩
    have hsome : (fl.find? fun e => Fits req.align (SLOB_UNITS req.size) e).isSome := by
      rw [List.find?_isSome]
      exact ⟨e, hmem, by simpa using hfits⟩
    obtain ⟨f, hfind⟩ := Option.isSome_iff_exists.mp hsome
    exact ⟨f, hbest, fl, hdec, hfind⟩

/-- **The search serves the request from the first block with room on the best
page**, or not at all. -/
theorem search_cases (cfg : Config) (hok : HeapOk h L) (hsize : SizeOk req.size) :
    (∃ sp e, FirstRoom cfg h req sp e ∧
      (slobAllocSearch cfg h req.size req.align req.node none).map Prod.fst =
        some (some (alignUp req.align e.start))) ∨
    ((∀ sp e, ¬ FirstRoom cfg h req sp e) ∧
      (slobAllocSearch cfg h req.size req.align req.node none).map Prod.fst = some none) := by
  cases hbest : bestPage cfg h req.size req.node none with
  | none =>
      refine Or.inr ⟨fun sp e hr => ?_, ?_⟩
      · rw [hr.1] at hbest
        cases hbest
      · rw [slobAllocSearch_noPage hbest]
        rfl
  | some sp =>
      have hlisted := (mem_candidates.mp (bestPage_mem hbest)).1
      obtain ⟨fl, hdec, hrun⟩ := slobAllocSearch_find hok hsize hbest hlisted
      cases hfind : fl.find? fun e => Fits req.align (SLOB_UNITS req.size) e with
      | none =>
          refine Or.inr ⟨?_, by rw [hrun, hfind]; rfl⟩
          rintro sp' e ⟨hbest', fl', hdec', hfind'⟩
          obtain rfl : sp' = sp := Option.some.inj (hbest'.symm.trans hbest)
          obtain rfl : fl' = fl := Option.some.inj (hdec'.symm.trans hdec)
          rw [hfind] at hfind'
          cases hfind'
      | some e => exact Or.inl ⟨sp, e, ⟨hbest, fl, hdec, hfind⟩, by rw [hrun, hfind]; rfl⟩

end Room

/-! ## Taking a new page -/

section NewPage

variable {cfg : Config} {n : Nat} {s : Sys n} {req : Request}

theorem needsPage_iff (hok : HeapOk s.heap s.ledger) (hsize : SizeOk req.size) :
    s.NeedsPage cfg req ↔ ∀ sp e, ¬ FirstRoom cfg s.heap req sp e := by
  rcases search_cases cfg hok hsize with ⟨sp, e, hr, hrun⟩ | ⟨hno, hrun⟩
  · rw [Sys.NeedsPage, hrun]
    exact iff_of_false (by simp) fun hno => hno sp e hr
  · exact iff_of_true hrun hno

/-- **A page is taken only when none of the list has room**, exactly if the page with
the fewest units has room as soon as any page of the list has. -/
theorem new_page_iff (hs : (machine cfg n).Reach s) (hsize : SizeOk req.size) :
    (s.NeedsPage cfg req → ∀ sp e, ¬ Fitting cfg s.heap req sp e) ↔
    ∀ t, bestPage cfg s.heap req.size req.node none = some t →
      ∀ sp e, Fitting cfg s.heap req sp e → ∃ f, Fitting cfg s.heap req t f := by
  have hok := (reach_sysOk hs).heap
  rw [needsPage_iff hok hsize]
  constructor
  · intro hneeds t hbest sp e hfit
    by_contra hnone
    refine hneeds (fun sp' f hr => ?_) sp e hfit
    obtain rfl : sp' = t := Option.some.inj (hr.1.symm.trans hbest)
    exact hnone ⟨f, hr.fitting⟩
  · intro hspeaks hno sp e hfit
    have hne : candidates cfg s.heap req.size req.node ≠ [] :=
      List.ne_nil_of_mem (hfit.candidate hok)
    cases hbest : bestPage cfg s.heap req.size req.node none with
    | none => exact hne (List.argmin_eq_none.mp hbest)
    | some t =>
        obtain ⟨f, hr⟩ := (firstRoom_iff hbest).mpr (hspeaks t hbest sp e hfit)
        exact hno t f hr

end NewPage

/-- The steps of a call that is served from a page of the list. -/
def oldPageCall (size : Nat) : List (Label 1) := [.search 0 ⟨size, false, 0, noNode⟩, .finish 0]

/-- The steps of one that gets page `pn`. -/
def newPageCall (size pn : Nat) : List (Label 1) :=
  [.search 0 ⟨size, false, 0, noNode⟩, .newPage 0 pn (fun _ => 255) ⟨-1, 0, false, false⟩,
    .insert 0, .finish 0]

/-- Five blocks of 1024 bytes on two pages, and two of the first page freed that are
not neighbours. -/
def twoHoles : List (Label 1) :=
  newPageCall 1024 1 ++ oldPageCall 1024 ++ oldPageCall 1024 ++ oldPageCall 1024 ++
    newPageCall 1024 2 ++ [.free 0 ⟨2048, 1024⟩, .free 0 ⟨3072, 1024⟩]

theorem twoHoles_end : ∃ s : Sys 1, (machine uniform 1).Reach s ∧
    s.NeedsPage uniform ⟨1500, false, 0, noNode⟩ ∧ s.heap.list .large = [1, 2] ∧
    s.heap.decoded 1 = some [⟨2048, 512⟩, ⟨3072, 512⟩] ∧
    s.heap.decoded 2 = some [⟨4608, 1536⟩] := by
  have hrun : ((machine uniform 1).replay (boot 1) twoHoles).map
      (fun s => (decide (s.NeedsPage uniform ⟨1500, false, 0, noNode⟩), s.heap.list .large,
        s.heap.decoded 1, s.heap.decoded 2)) =
      some (true, [1, 2], some [⟨2048, 512⟩, ⟨3072, 512⟩], some [⟨4608, 1536⟩]) := by
    decide +kernel
  obtain ⟨s, hs, hend⟩ := Option.map_eq_some_iff.mp hrun
  simp only [Prod.mk.injEq, decide_eq_true_eq] at hend
  exact ⟨s, Machine.Reach.replay (.init (booted_boot 1)) hs, hend⟩

/-- A request for 1024 bytes: whichever page has the fewest units, both have room, and no
page is taken. -/
theorem new_page_iff_twoHoles : ∃ s : Sys 1, (machine uniform 1).Reach s ∧
    s.heap.list .large = [1, 2] ∧
    Fitting uniform s.heap ⟨1024, false, 0, noNode⟩ 1 ⟨2048, 512⟩ ∧
    Fitting uniform s.heap ⟨1024, false, 0, noNode⟩ 2 ⟨4608, 1536⟩ ∧
    ¬ s.NeedsPage uniform ⟨1024, false, 0, noNode⟩ := by
  obtain ⟨s, hs, -, hlist, hdec1, hdec2⟩ := twoHoles_end
  have hlisted : ∀ sp ∈ [1, 2], sp ∈ s.heap.list .large := fun sp hsp => hlist ▸ hsp
  have hfit1 : Fitting uniform s.heap ⟨1024, false, 0, noNode⟩ 1 ⟨2048, 512⟩ :=
    ⟨hlisted 1 (by decide), rfl, _, hdec1, by decide, by decide⟩
  have hfit2 : Fitting uniform s.heap ⟨1024, false, 0, noNode⟩ 2 ⟨4608, 1536⟩ :=
    ⟨hlisted 2 (by decide), rfl, _, hdec2, by decide, by decide⟩
  refine ⟨s, hs, hlist, hfit1, hfit2, fun hneeds => ?_⟩
  refine (new_page_iff hs (by decide)).mpr (fun t hbest sp e _ => ?_) hneeds 2 _ hfit2
  have ht : t ∈ s.heap.list .large := (mem_candidates.mp (bestPage_mem hbest)).1
  rw [hlist] at ht
  rcases List.mem_pair.mp ht with rfl | rfl
  · exact ⟨_, hfit1⟩
  · exact ⟨_, hfit2⟩

/-- **A page is taken although another has room**: the first page has 1024 units left,
but in two pieces; the other has 1536 in one. -/
theorem new_page_despite_room : ∃ s : Sys 1, (machine uniform 1).Reach s ∧
    s.NeedsPage uniform ⟨1500, false, 0, noNode⟩ ∧
    Fitting uniform s.heap ⟨1500, false, 0, noNode⟩ 2 ⟨4608, 1536⟩ := by
  obtain ⟨s, hs, hneeds, hlist, -, hdec⟩ := twoHoles_end
  refine ⟨s, hs, hneeds, ?_, rfl, _, hdec, by decide, by decide⟩
  change 2 ∈ s.heap.list .large
  rw [hlist]
  decide

/-! ## The closest fit -/

/-- The block at `b` is cut from a free block that is as short as any that the
request could be cut from. -/
def ClosestFit (cfg : Config) (h : Heap) (req : Request) (b : Nat) : Prop :=
  ∃ sp e, Fitting cfg h req sp e ∧ e.start ≤ b ∧ b + SLOB_UNITS req.size ≤ e.stop ∧
    ∀ sp' f, Fitting cfg h req sp' f → e.len ≤ f.len

/-- **What is served is a closest fit**, exactly if the first block with room on the
page with the fewest units is as short as any block with room. -/
theorem closest_fit_iff {cfg : Config} {n : Nat} {s : Sys n} (hs : (machine cfg n).Reach s)
    (req : Request) (hsize : SizeOk req.size) :
    (∀ b h', slobAllocSearch cfg s.heap req.size req.align req.node none = some (some b, h') →
      ClosestFit cfg s.heap req b) ↔
    ∀ t e, FirstRoom cfg s.heap req t e → ∀ sp f, Fitting cfg s.heap req sp f → e.len ≤ f.len := by
  have hok := (reach_sysOk hs).heap
  have hunits : 0 < SLOB_UNITS req.size := SLOB_UNITS_pos hsize.1 hsize.2
  rcases search_cases cfg hok hsize with ⟨t, e, hr, hrun⟩ | ⟨hno, hrun⟩
  · obtain ⟨⟨b, h'⟩, hsearch, rfl⟩ := Option.map_eq_some_iff.mp hrun
    have hfits : Fits req.align (SLOB_UNITS req.size) e := by
      obtain ⟨fl, -, -, hfits⟩ := hr.fitting.room
      exact hfits
    have hone : ∀ t' e', FirstRoom cfg s.heap req t' e' → e' = e := by
      rintro t' e' ⟨hbest', fl', hdec', hfind'⟩
      obtain ⟨hbest, fl, hdec, hfind⟩ := hr
      obtain rfl : t' = t := Option.some.inj (hbest'.symm.trans hbest)
      obtain rfl : fl' = fl := Option.some.inj (hdec'.symm.trans hdec)
      exact Option.some.inj (hfind'.symm.trans hfind)
    constructor
    · intro hclosest t' e' hr'
      obtain rfl := hone t' e' hr'
      obtain ⟨sp, f, hf, hlo, hhi, hmin⟩ := hclosest _ _ hsearch
      -- the block it is cut from is the first one with room
      have hfu : f.Has (alignUp req.align e'.start) := ⟨hlo, by omega⟩
      obtain rfl := hr'.fitting.unique hok hf (hfits.has hunits) hfu
      exact hmin
    · intro hfirst b' h'' hsearch'
      cases hsearch.symm.trans hsearch'
      exact ⟨t, e, hr.fitting, le_alignUp _ _, hfits, hfirst t e hr⟩
  · refine iff_of_true (fun b h' hsearch => ?_) fun t e hr => absurd hr (hno t e)
    rw [hsearch] at hrun
    cases hrun

/-- On one page, two free blocks with room for 20 bytes, the closer one behind the
other. -/
def closerBehind : List (Label 1) :=
  newPageCall 100 1 ++ oldPageCall 10 ++ oldPageCall 20 ++ oldPageCall 10 ++
    [.free 0 ⟨2048, 100⟩, .free 0 ⟨2103, 20⟩]

theorem closerBehind_end : ∃ s : Sys 1, (machine uniform 1).Reach s ∧
    s.heap.list .small = [1] ∧ s.heap.decoded 1 = some [⟨2048, 50⟩, ⟨2103, 10⟩, ⟨2118, 1978⟩] ∧
    ∃ h', slobAllocSearch uniform s.heap 20 0 noNode none = some (some 2048, h') := by
  have hrun : ((machine uniform 1).replay (boot 1) closerBehind).map
      (fun s => (s.heap.list .small, s.heap.decoded 1,
        (slobAllocSearch uniform s.heap 20 0 noNode none).map Prod.fst)) =
      some ([1], some [⟨2048, 50⟩, ⟨2103, 10⟩, ⟨2118, 1978⟩], some (some 2048)) := by
    decide +kernel
  obtain ⟨s, hs, hend⟩ := Option.map_eq_some_iff.mp hrun
  simp only [Prod.mk.injEq] at hend
  obtain ⟨hlist, hdec, hsearch⟩ := hend
  obtain ⟨⟨b, h'⟩, hsearch, rfl⟩ := Option.map_eq_some_iff.mp hsearch
  exact ⟨s, Machine.Reach.replay (.init (booted_boot 1)) hs, hlist, hdec, h', hsearch⟩

/-- For 100 bytes the first block is an exact fit. -/
theorem closest_fit_iff_exact : ∃ s : Sys 1, (machine uniform 1).Reach s ∧
    s.heap.decoded 1 = some [⟨2048, 50⟩, ⟨2103, 10⟩, ⟨2118, 1978⟩] ∧
    ∀ b h', slobAllocSearch uniform s.heap 100 0 noNode none = some (some b, h') →
      ClosestFit uniform s.heap ⟨100, false, 0, noNode⟩ b := by
  obtain ⟨s, hs, hlist, hdec, -⟩ := closerBehind_end
  refine ⟨s, hs, hdec, (closest_fit_iff hs ⟨100, false, 0, noNode⟩ (by decide)).mpr ?_⟩
  rintro t e hr sp f ⟨-, -, fl, -, -, hfits⟩
  have ht : t ∈ s.heap.list .small := hr.fitting.listed
  obtain ⟨-, fl', hdec', hfind⟩ := hr
  obtain rfl : t = 1 := by simpa [hlist] using ht
  obtain rfl := Option.some.inj (hdec.symm.trans hdec')
  obtain rfl : (⟨2048, 50⟩ : Ext) = e := Option.some.inj hfind
  exact hfits.len

/-- **20 bytes are cut from the block of 100**, though there is one of 20. -/
theorem closer_block_missed : ∃ (s : Sys 1) (h' : Heap), (machine uniform 1).Reach s ∧
    slobAllocSearch uniform s.heap 20 0 noNode none = some (some 2048, h') ∧
    Fitting uniform s.heap ⟨20, false, 0, noNode⟩ 1 ⟨2048, 50⟩ ∧
    Fitting uniform s.heap ⟨20, false, 0, noNode⟩ 1 ⟨2103, 10⟩ ∧
    ¬ ClosestFit uniform s.heap ⟨20, false, 0, noNode⟩ 2048 := by
  obtain ⟨s, hs, hlist, hdec, h', hsearch⟩ := closerBehind_end
  have hlisted : 1 ∈ s.heap.list (slobListOf 20) := by
    change 1 ∈ s.heap.list .small
    rw [hlist]
    decide
  have hfirst : Fitting uniform s.heap ⟨20, false, 0, noNode⟩ 1 ⟨2048, 50⟩ :=
    ⟨hlisted, rfl, _, hdec, by decide, by decide⟩
  have hcloser : Fitting uniform s.heap ⟨20, false, 0, noNode⟩ 1 ⟨2103, 10⟩ :=
    ⟨hlisted, rfl, _, hdec, by decide, by decide⟩
  refine ⟨s, h', hs, hsearch, hfirst, hcloser, ?_⟩
  rintro ⟨sp, e, he, hlo, hhi, hmin⟩
  have heu : e.Has 2048 := ⟨hlo, lt_of_lt_of_le (by decide) hhi⟩
  obtain rfl := he.unique (reach_sysOk hs).heap hfirst heu (by decide)
  exact absurd (hmin 1 _ hcloser) (by decide)

/-! ## Calls that fail -/

/-- **A call that returns `NULL` has changed nothing**: the search has found nothing,
the page allocator has refused, and only the count of free units has been made
anew. -/
theorem failed_alloc_changes_nothing {cfg : Config} {h h' : Heap} {size align : Nat} {zero : Bool}
    {node : Int} {spAlt pg : Option Nat}
    (hnull : slobAlloc cfg h size zero align node spAlt pg = some (none, h')) :
    (slobAllocSearch cfg h size align node spAlt).map Prod.fst = some none ∧ pg = none ∧
      SameHeap h h' := by
  unfold slobAlloc at hnull
  split at hnull
  · cases hnull
  · cases hnull
  · rename_i h1 hsearch
    split at hnull
    · cases hnull
      rw [slobAllocSearch_null hsearch, hsearch]
      exact ⟨rfl, rfl, rfl, rfl, rfl, rfl, rfl, rfl⟩
    · split at hnull
      · cases hnull
      · cases hnull

/-- A request that is refused after both holes of the first page were looked at. -/
theorem failed_alloc_twoHoles : ∃ (s : Sys 1) (h' : Heap), (machine uniform 1).Reach s ∧
    s.heap.decoded 1 = some [⟨2048, 512⟩, ⟨3072, 512⟩] ∧
    slobAlloc uniform s.heap 1500 false 0 noNode none none = some (none, h') ∧
    SameHeap s.heap h' := by
  obtain ⟨s, hs, hneeds, -, hdec, -⟩ := twoHoles_end
  obtain ⟨⟨b, h'⟩, hsearch, hb⟩ := Option.map_eq_some_iff.mp hneeds
  obtain rfl : b = none := hb
  have hnull : slobAlloc uniform s.heap 1500 false 0 noNode none none = some (none, h') := by
    rw [slobAlloc, hsearch]
  exact ⟨s, h', hs, hdec, hnull, (failed_alloc_changes_nothing hnull).2.2⟩

end OsProjects.Slob
