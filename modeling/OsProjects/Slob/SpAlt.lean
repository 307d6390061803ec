import OsProjects.Slob.BestFit

/-!
# What `sp_alt` holds at first

`slob_alloc` does not initialise `sp_alt`, so the scan starts from whatever page
the stack happens to name. Pages of the list replace it only if they have enough
units and fewer than it has. `independent_iff` says when two calls with different
leftovers cannot be told apart.
-/

namespace OsProjects.Slob

open Framework

section Runs

variable (cfg : Config) (h : Heap) (req : Request) (pg : Option Nat)

/-- A page `slob_page_alloc` may be run on: of the list, and with enough units. -/
def Allowed (sp : Nat) : Prop :=
  sp ∈ h.list (slobListOf req.size) ∧ SLOB_UNITS req.size ≤ toUnsigned (h.page sp).units

/-- The call, with `sp_alt` as it is found. -/
def allocFrom (spAlt : Option Nat) : Option (Option Nat × Heap) :=
  slobAlloc cfg h req.size req.zero req.align req.node spAlt pg

/-- Two leftovers make no difference, and neither leads to a page that is not
allowed. -/
structure Independent (a₁ a₂ : Option Nat) : Prop where
  same : allocFrom cfg h req pg a₁ = allocFrom cfg h req pg a₂
  allowed : ∀ a ∈ [a₁, a₂], ∀ sp,
    scanPages cfg h req.size req.node (h.list (slobListOf req.size)) a = some sp →
      Allowed h req sp

/-- The leftover is no page, or one that is allowed, or one with more units than some
page considered. -/
def Masked (spAlt : Option Nat) : Prop :=
  ∀ p, spAlt = some p → Allowed h req p ∨
    ∃ q ∈ candidates cfg h req.size req.node, (h.page q).units < (h.page p).units

end Runs

section Leftover

variable {cfg : Config} {h : Heap} {L : Ledger} {req : Request} {pg a a₁ a₂ : Option Nat}

theorem candidate_allowed {sp : Nat} (hsp : sp ∈ candidates cfg h req.size req.node) :
    Allowed h req sp := by
  obtain ⟨hlisted, -, hunits⟩ := mem_candidates.mp hsp
  exact ⟨hlisted, hunits⟩

/-- **The page that is tried is allowed** exactly if the leftover is masked. -/
theorem masked_iff :
    Masked cfg h req a ↔ ∀ sp, bestPage cfg h req.size req.node a = some sp → Allowed h req sp := by
  constructor
  · intro hmasked sp hsp
    rcases List.mem_append.mp (List.argmin_mem hsp) with halt | hcand
    · obtain rfl := Option.mem_toList.mp halt
      rcases hmasked sp rfl with hallowed | ⟨q, hq, hlt⟩
      · exact hallowed
      · have hle := List.le_of_mem_argmin (List.mem_append_right _ hq) hsp
        exact absurd hlt (not_lt.mpr hle)
    · exact candidate_allowed hcand
  · rintro hallowed p rfl
    by_contra hcon
    obtain ⟨hnot, hno⟩ := not_or.mp hcon
    push Not at hno
    refine hnot (hallowed p (List.mem_argmin_iff.mpr ⟨List.mem_cons_self, ?_, ?_⟩))
    · intro q hq
      rcases List.mem_cons.mp hq with rfl | hq
      · exact le_refl _
      · exact hno q hq
    · intro q _ _
      simp

/-- The page the block returned is on. -/
def resultPage (out : Option (Option Nat × Heap)) : Option Nat :=
  (out.bind Prod.fst).map virtToPage

/-- What an allowed page gives, in terms of the free blocks on it. -/
theorem search_allowed (hok : HeapOk h L) (hsize : SizeOk req.size) {sp : Nat}
    (hbest : bestPage cfg h req.size req.node a = some sp) (hsp : Allowed h req sp) :
    (∃ b h', slobAllocSearch cfg h req.size req.align req.node a = some (some b, h') ∧
      virtToPage b = sp ∧ ∃ e, RoomOn h req sp e) ∨
    (slobAllocSearch cfg h req.size req.align req.node a =
      some (none, recountFree { h with free := 0 }) ∧ ∀ e, ¬ RoomOn h req sp e) := by
  obtain ⟨fl, hdec, hrun⟩ := slobAllocSearch_find hok hsize hbest hsp.1
  obtain ⟨⟨b, h'⟩, hsearch, hb⟩ := Option.map_eq_some_iff.mp hrun
  cases hfind : fl.find? fun e => Fits req.align (SLOB_UNITS req.size) e with
  | none =>
      rw [hfind] at hb
      obtain rfl : b = none := hb
      rw [slobAllocSearch_null hsearch] at hsearch
      refine Or.inr ⟨hsearch, ?_⟩
      rintro e ⟨fl', hdec', hmem, hfits⟩
      obtain rfl : fl = fl' := Option.some.inj (hdec.symm.trans hdec')
      simpa using List.find?_eq_none.mp hfind e hmem (by simpa using hfits)
  | some e =>
      rw [hfind] at hb
      obtain rfl : b = some (alignUp req.align e.start) := hb
      have hmem := List.mem_of_find?_eq_some hfind
      have hfits : Fits req.align (SLOB_UNITS req.size) e := by
        simpa using List.find?_some hfind
      obtain ⟨fl', hdec', -, hin, -⟩ := hok.page_listed hsp.1
      obtain rfl : fl = fl' := Option.some.inj (hdec.symm.trans hdec')
      obtain ⟨hlo, hhi⟩ :=
        (hin e hmem).bounds (hfits.has (SLOB_UNITS_pos hsize.1 hsize.2))
      exact Or.inl ⟨_, h', hsearch, virtToPage_of_bounds hlo hhi, e, fl, hdec, hmem, hfits⟩

/-- A call that has room on its page returns a block of that page. -/
theorem resultPage_room (hok : HeapOk h L) (hsize : SizeOk req.size) {sp : Nat} {e : Ext}
    (hbest : bestPage cfg h req.size req.node a = some sp) (hsp : Allowed h req sp)
    (hroom : RoomOn h req sp e) : resultPage (allocFrom cfg h req pg a) = some sp := by
  rcases search_allowed hok hsize hbest hsp with ⟨b, h', hsearch, hb, -⟩ | ⟨-, hno⟩
  · rw [allocFrom, slobAlloc, hsearch, ← hb]
    rfl
  · exact absurd hroom (hno e)

/-- A call returns a block of the page it has tried, or of a new one. -/
theorem resultPage_cases (hok : HeapOk h L) (hreq : req.Ok)
    (hpg : ∀ pn, pg = some pn → 0 < pn ∧ pn ∉ L.held)
    (hallowed : ∀ sp, bestPage cfg h req.size req.node a = some sp → Allowed h req sp) {q : Nat}
    (hq : resultPage (allocFrom cfg h req pg a) = some q) :
    bestPage cfg h req.size req.node a = some q ∨ q ∉ L.held := by
  -- with nothing found, the block is on the new page
  have hnew : ∀ h1, slobAllocSearch cfg h req.size req.align req.node a = some (none, h1) →
      q ∉ L.held := by
    intro h1 hsearch
    have hsame : SameHeap h h1 := by
      rw [slobAllocSearch_null hsearch]
      exact ⟨rfl, rfl, rfl, rfl, rfl, rfl⟩
    cases pg with
    | none =>
        rw [allocFrom, slobAlloc, hsearch] at hq
        cases hq
    | some pn =>
        obtain ⟨hpos, hheld⟩ := hpg pn rfl
        obtain ⟨h', hrun, -⟩ :=
          slobAlloc_newPage req.zero hok hreq.1 hreq.2 hsearch hsame hpos hheld
        rw [allocFrom, hrun] at hq
        obtain rfl : virtToPage (pageStart pn) = q := Option.some.inj hq
        rwa [virtToPage_pageStart]
  cases hbest : bestPage cfg h req.size req.node a with
  | none =>
      right
      apply hnew
      exact slobAllocSearch_noPage hbest
  | some sp =>
      rcases search_allowed hok hreq.1 hbest (hallowed sp hbest) with
        ⟨b, h', hsearch, hb, -⟩ | ⟨hsearch, -⟩
      · left
        rw [allocFrom, slobAlloc, hsearch] at hq
        obtain rfl : virtToPage b = q := Option.some.inj hq
        rw [hb]
      · exact Or.inr (hnew _ hsearch)

/-- Where no room is on the page tried, all calls are the same. -/
theorem search_without_room (hok : HeapOk h L) (hsize : SizeOk req.size)
    (hallowed : ∀ sp, bestPage cfg h req.size req.node a = some sp → Allowed h req sp)
    (hno : ∀ sp e, bestPage cfg h req.size req.node a = some sp → ¬ RoomOn h req sp e) :
    slobAllocSearch cfg h req.size req.align req.node a =
      some (none, recountFree { h with free := 0 }) := by
  cases hbest : bestPage cfg h req.size req.node a with
  | none => exact slobAllocSearch_noPage hbest
  | some sp =>
      rcases search_allowed hok hsize hbest (hallowed sp hbest) with
        ⟨b, h', -, -, e, hroom⟩ | ⟨hsearch, -⟩
      · exact absurd hroom (hno sp e hbest)
      · exact hsearch

theorem allocFrom_congr
    (hsearch : slobAllocSearch cfg h req.size req.align req.node a₁ =
      slobAllocSearch cfg h req.size req.align req.node a₂) :
    allocFrom cfg h req pg a₁ = allocFrom cfg h req pg a₂ := by
  unfold allocFrom slobAlloc
  rw [hsearch]

/-- One of two calls that agree has room on its page: it is the page of both. -/
theorem bestPage_of_room (hok : HeapOk h L) (hreq : req.Ok)
    (hpg : ∀ pn, pg = some pn → 0 < pn ∧ pn ∉ L.held)
    (hallowed₁ : ∀ sp, bestPage cfg h req.size req.node a₁ = some sp → Allowed h req sp)
    (hallowed₂ : ∀ sp, bestPage cfg h req.size req.node a₂ = some sp → Allowed h req sp)
    (hsame : allocFrom cfg h req pg a₁ = allocFrom cfg h req pg a₂) {sp : Nat} {e : Ext}
    (hbest : bestPage cfg h req.size req.node a₁ = some sp) (hroom : RoomOn h req sp e) :
    bestPage cfg h req.size req.node a₂ = some sp := by
  have hsp := hallowed₁ sp hbest
  have hresult : resultPage (allocFrom cfg h req pg a₂) = some sp := by
    rw [← hsame]
    exact resultPage_room hok hreq.1 hbest hsp hroom
  rcases resultPage_cases hok hreq hpg hallowed₂ hresult with hbest' | hnot
  · exact hbest'
  · exact absurd (hok.of_listed hsp.1) hnot

end Leftover

/-- **When the leftover of `sp_alt` does not matter**: both leftovers are masked, and
the two scans end at one page, or at pages without room. -/
theorem independent_iff {cfg : Config} {n : Nat} {s : Sys n} (hs : (machine cfg n).Reach s)
    {req : Request} (hreq : req.Ok) {pg : Option Nat} (hpg : ∀ pn, pg = some pn → s.Fresh pn)
    (a₁ a₂ : Option Nat) :
    Independent cfg s.heap req pg a₁ a₂ ↔
    Masked cfg s.heap req a₁ ∧ Masked cfg s.heap req a₂ ∧
      (bestPage cfg s.heap req.size req.node a₁ = bestPage cfg s.heap req.size req.node a₂ ∨
        ∀ a ∈ [a₁, a₂], ∀ sp e, bestPage cfg s.heap req.size req.node a = some sp →
          ¬ RoomOn s.heap req sp e) := by
  have hok := (reach_sysOk hs).heap
  have hfresh : ∀ pn, pg = some pn → 0 < pn ∧ pn ∉ s.ledger.held :=
    fun pn hpn => ⟨(hpg pn hpn).1, (hpg pn hpn).2.1⟩
  have hscan : ∀ a, scanPages cfg s.heap req.size req.node (s.heap.list (slobListOf req.size)) a =
      bestPage cfg s.heap req.size req.node a := fun a => scanPages_eq _ _ _ _ _ a
  constructor
  · rintro ⟨hsame, hall⟩
    have h₁ : ∀ sp, bestPage cfg s.heap req.size req.node a₁ = some sp → Allowed s.heap req sp :=
      fun sp hsp => hall a₁ (by simp) sp ((hscan a₁).trans hsp)
    have h₂ : ∀ sp, bestPage cfg s.heap req.size req.node a₂ = some sp → Allowed s.heap req sp :=
      fun sp hsp => hall a₂ (by simp) sp ((hscan a₂).trans hsp)
    refine ⟨masked_iff.mpr h₁, masked_iff.mpr h₂, or_iff_not_imp_left.mpr fun hne => ?_⟩
    intro a ha sp e hbest hroom
    rcases List.mem_pair.mp ha with rfl | rfl
    · have hbest' := bestPage_of_room hok hreq hfresh h₁ h₂ hsame hbest hroom
      exact hne (hbest.trans hbest'.symm)
    · have hbest' := bestPage_of_room hok hreq hfresh h₂ h₁ hsame.symm hbest hroom
      exact hne (hbest'.trans hbest.symm)
  · rintro ⟨hm₁, hm₂, hor⟩
    have h₁ := masked_iff.mp hm₁
    have h₂ := masked_iff.mp hm₂
    refine ⟨allocFrom_congr ?_, ?_⟩
    · rcases hor with heq | hno
      · rw [slobAllocSearch_eq, heq, slobAllocSearch_eq]
      · rw [search_without_room hok hreq.1 h₁ (hno a₁ (by simp)),
          search_without_room hok hreq.1 h₂ (hno a₂ (by simp))]
    · intro a ha sp hsp
      rw [hscan] at hsp
      rcases List.mem_pair.mp ha with rfl | rfl
      · exact h₁ sp hsp
      · exact h₂ sp hsp

/-- A leftover that is the page the scan ends at anyway. -/
theorem independent_iff_same : ∃ s : Sys 1, (machine uniform 1).Reach s ∧
    s.heap.list .small = [1] ∧
    Independent uniform s.heap ⟨20, false, 0, noNode⟩ none none (some 1) := by
  obtain ⟨s, hs, hlist, hdec, -⟩ := closerBehind_end
  have hfit : Fitting uniform s.heap ⟨20, false, 0, noNode⟩ 1 ⟨2048, 50⟩ := by
    refine ⟨?_, rfl, _, hdec, by decide, by decide⟩
    change 1 ∈ s.heap.list .small
    rw [hlist]
    decide
  have hcand := hfit.candidate (reach_sysOk hs).heap
  have hbest : ∀ a : Option Nat, (∀ p, a = some p → p = 1) →
      bestPage uniform s.heap 20 noNode a = some 1 := by
    intro a ha
    cases hb : bestPage uniform s.heap 20 noNode a with
    | none =>
        have hnil := List.append_eq_nil_iff.mp (List.argmin_eq_none.mp hb)
        exact absurd hnil.2 (List.ne_nil_of_mem hcand)
    | some t =>
        rcases List.mem_append.mp (List.argmin_mem hb) with halt | hin
        · rw [ha t (Option.mem_toList.mp halt)]
        · have ht : t ∈ s.heap.list .small := (mem_candidates.mp hin).1
          rw [hlist, List.mem_singleton] at ht
          rw [ht]
  refine ⟨s, hs, hlist, (independent_iff hs (by decide) (by simp) none (some 1)).mpr ⟨?_, ?_, ?_⟩⟩
  · simp [Masked]
  · rintro p hp
    cases hp
    exact Or.inl (candidate_allowed hcand)
  · left
    rw [hbest none (by simp), hbest (some 1) (by simp)]

/-- **A page of another list is cut up**: no page is listed for 2000 bytes, so with
`NULL` left in `sp_alt` the call fails, and with a page of small objects there the
block is taken from that page. -/
theorem leftover_page_used : ∃ (s : Sys 1) (h₁ h₂ : Heap), (machine uniform 1).Reach s ∧
    s.heap.list .large = [] ∧ s.heap.list .small = [1] ∧
    allocFrom uniform s.heap ⟨2000, false, 0, noNode⟩ none none = some (none, h₁) ∧
    allocFrom uniform s.heap ⟨2000, false, 0, noNode⟩ none (some 1) = some (some 2118, h₂) ∧
    ¬ Independent uniform s.heap ⟨2000, false, 0, noNode⟩ none none (some 1) := by
  have hrun : ((machine uniform 1).replay (boot 1) closerBehind).map
      (fun s => (s.heap.list .large, s.heap.list .small,
        (allocFrom uniform s.heap ⟨2000, false, 0, noNode⟩ none none).map Prod.fst,
        (allocFrom uniform s.heap ⟨2000, false, 0, noNode⟩ none (some 1)).map Prod.fst)) =
      some ([], [1], some none, some (some 2118)) := by decide +kernel
  obtain ⟨s, hs, hend⟩ := Option.map_eq_some_iff.mp hrun
  simp only [Prod.mk.injEq] at hend
  obtain ⟨hlarge, hsmall, hnull, hpage⟩ := hend
  obtain ⟨⟨b₁, h₁⟩, hnull, rfl⟩ := Option.map_eq_some_iff.mp hnull
  obtain ⟨⟨b₂, h₂⟩, hpage, rfl⟩ := Option.map_eq_some_iff.mp hpage
  refine ⟨s, h₁, h₂, Machine.Reach.replay (.init (booted_boot 1)) hs, hlarge, hsmall, hnull, hpage,
    fun hind => ?_⟩
  have hsame := hind.same
  rw [hnull, hpage] at hsame
  cases hsame

end OsProjects.Slob
