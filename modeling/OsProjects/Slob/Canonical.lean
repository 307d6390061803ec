import OsProjects.Slob.Accounting

/-!
# The heap is a function of the live blocks

Which pages are held, what is free on each of them, in which pieces, how many
units `sp->units` counts and on which list a page is: all of it follows from the
blocks that are live (`HeapOk.alike`). However different two histories are, they
end in the same heap if the same blocks are left.

- `free_undoes_alloc` — `slob_free` right after `slob_alloc` leads back;
- `free_order_irrelevant` — blocks may be freed in any order.
-/

namespace OsProjects.Slob

open Framework

/-! ## Canonical form -/

/-- The free list of a page, as the code walks it. A full page has none. -/
def Heap.decoded (h : Heap) (pn : Nat) : Option (List Ext) :=
  if (h.page pn).units = 0 then some []
  else decode h.mem (SLOB_UNITS PAGE_SIZE) (h.page pn).freelist

/-- The free list of page `sp` is `fl`, in order and counted by `sp->units`. -/
structure FreePage (h : Heap) (sp : Nat) (fl : List Ext) : Prop where
  free : FreeList (h.view sp) sp fl
  units : (h.page sp).units = total fl

theorem FreePage.decoded {h : Heap} {sp : Nat} {fl : List Ext} (hp : FreePage h sp fl) :
    h.decoded sp = some fl := by
  have hzero : (h.page sp).units = 0 ↔ fl = [] := by
    rw [hp.units, Int.natCast_eq_zero, hp.free.gapped.total_eq_zero]
  unfold Heap.decoded
  by_cases hnil : fl = []
  · rw [if_pos (hzero.mpr hnil), hnil]
  · rw [if_neg (mt hzero.mp hnil)]
    exact hp.free.decode_eq hnil

/-- Nothing to tell two heaps apart: the pages held, what is free on them, the
lists up to their order, `pcount` and `used_m`. Pages that are `away` are with a
call under way. -/
structure Alike (away : Nat → Prop) (h h' : Heap) : Prop where
  held : ∀ pn, (h'.page pn).slab = (h.page pn).slab
  units : ∀ pn, (h.page pn).slab = true → ¬ away pn → (h'.page pn).units = (h.page pn).units
  decoded : ∀ pn, (h.page pn).slab = true → ¬ away pn →
    ∃ fl, h.decoded pn = some fl ∧ h'.decoded pn = some fl
  list : ∀ c, (h'.list c).Perm (h.list c)
  pcount : h'.pcount = h.pcount
  usedM : h'.usedM = h.usedM

theorem PageGood.freePage {h : Heap} {c : SlobList} {bs : List Block} {pn : Nat}
    {fl : List Ext} (hp : PageGood h c bs pn fl) : FreePage h pn fl :=
  ⟨hp.free, hp.units⟩

theorem PageGood.decoded {h : Heap} {c : SlobList} {bs : List Block} {pn : Nat}
    {fl : List Ext} (hp : PageGood h c bs pn fl) : h.decoded pn = some fl :=
  hp.freePage.decoded

/-- What is free on a page follows from what is live there. -/
theorem Tiled.unique {pn : Nat} {bs bs' : List Block} {fl fl' : List Ext}
    (ht : Tiled pn bs fl) (ht' : Tiled pn bs' fl') (hperm : bs.Perm bs') : fl = fl' := by
  apply Gapped.ext ht.gapped ht'.gapped
  intro u
  have hcov : Covers (exts bs) u ↔ Covers (exts bs') u := covers_perm (hperm.map Block.ext) u
  constructor
  · rintro ⟨e, he, heu⟩
    obtain ⟨hlo, hhi⟩ := (ht.freeIn e he).bounds heu
    rw [ht'.complement u hlo hhi, ← hcov, ← ht.complement u hlo hhi]
    exact ⟨e, he, heu⟩
  · rintro ⟨e, he, heu⟩
    obtain ⟨hlo, hhi⟩ := (ht'.freeIn e he).bounds heu
    rw [ht.complement u hlo hhi, hcov, ← ht'.complement u hlo hhi]
    exact ⟨e, he, heu⟩

section Canonical

variable {h h' : Heap} {L L' : Ledger}

/-- A page is held as long as something is live on it. -/
theorem HeapOk.held_iff (hok : HeapOk h L) {pn : Nat} :
    pn ∈ L.held ↔ ∃ b ∈ L.live, b.pageNo = pn := by
  constructor
  · intro hpn
    obtain ⟨b, hb⟩ := List.exists_mem_of_ne_nil _ (hok.occupied pn hpn)
    exact ⟨b, mem_blocksOn.mp hb⟩
  · rintro ⟨b, hb, rfl⟩
    exact hok.housed b hb

theorem HeapOk.held_perm (hok : HeapOk h L) (hok' : HeapOk h' L')
    (hlive : L.live.Perm L'.live) : L.held.Perm L'.held := by
  refine (List.perm_ext_iff_of_nodup hok.heldNodup hok'.heldNodup).mpr fun pn => ?_
  simp only [hok.held_iff, hok'.held_iff, hlive.mem_iff]

/-- One page, seen in both heaps. -/
theorem HeapOk.page_unique (hok : HeapOk h L) (hok' : HeapOk h' L')
    (hlive : L.live.Perm L'.live) {pn : Nat} (hpn : pn ∈ L.held) :
    ∃ c fl, PageGood h c (blocksOn L.live pn) pn fl ∧
      PageGood h' c (blocksOn L'.live pn) pn fl := by
  have hperm : (blocksOn L.live pn).Perm (blocksOn L'.live pn) := hlive.filter _
  obtain ⟨c, fl, hp⟩ := hok.pages pn hpn
  obtain ⟨c', fl', hp'⟩ := hok'.pages pn ((hok.held_perm hok' hlive).mem_iff.mp hpn)
  obtain rfl : fl = fl' := hp.tiled.unique hp'.tiled hperm
  -- any block of the page tells its class
  obtain ⟨b, hb⟩ := List.exists_mem_of_ne_nil _ (hok.occupied pn hpn)
  obtain rfl : c = c' := (hp.classed b hb).symm.trans (hp'.classed b (hperm.mem_iff.mp hb))
  exact ⟨c, fl, hp, hp'⟩

theorem HeapOk.list_perm (hok : HeapOk h L) (hok' : HeapOk h' L')
    (hlive : L.live.Perm L'.live) (c : SlobList) : (h'.list c).Perm (h.list c) := by
  refine (List.perm_ext_iff_of_nodup (hok'.listNodup c) (hok.listNodup c)).mpr fun pn => ?_
  by_cases hpn : pn ∈ L.held
  · obtain ⟨d, fl, hp, hp'⟩ := hok.page_unique hok' hlive hpn
    rw [hp.listed, hp'.listed]
  · have hpn' : pn ∉ L'.held := fun hin => hpn ((hok.held_perm hok' hlive).mem_iff.mpr hin)
    exact iff_of_false (hok'.unlisted pn hpn' c) (hok.unlisted pn hpn c)

/-- **Two heaps with the same live blocks are alike.** -/
theorem HeapOk.alike {away : Nat → Prop} (hok : HeapOk h L) (hok' : HeapOk h' L')
    (hlive : L.live.Perm L'.live)
    (hflag : ∀ pn, pn ∉ L.held → (h'.page pn).slab = (h.page pn).slab)
    (haway : ∀ pn, (h.page pn).slab = true → pn ∈ L.held ∨ away pn)
    (hpcount : h'.pcount = h.pcount) (hused : h'.usedM = h.usedM) : Alike away h h' := by
  have hheld : ∀ pn, (h.page pn).slab = true → ¬ away pn → pn ∈ L.held := fun pn hslab hnot =>
    (haway pn hslab).resolve_right hnot
  refine ⟨fun pn => ?_, fun pn hslab hnot => ?_, fun pn hslab hnot => ?_,
    hok.list_perm hok' hlive, hpcount, hused⟩
  · by_cases hpn : pn ∈ L.held
    · obtain ⟨c, fl, hp, hp'⟩ := hok.page_unique hok' hlive hpn
      rw [hp.slab, hp'.slab]
    · exact hflag pn hpn
  · obtain ⟨c, fl, hp, hp'⟩ := hok.page_unique hok' hlive (hheld pn hslab hnot)
    rw [hp.units, hp'.units]
  · obtain ⟨c, fl, hp, hp'⟩ := hok.page_unique hok' hlive (hheld pn hslab hnot)
    exact ⟨fl, hp.decoded, hp'.decoded⟩

end Canonical

/-! ## Freeing -/

/-- `slob_free` of one block after the other. -/
def freeAll (h : Heap) : List Block → Option Heap
  | [] => some h
  | b :: bs =>
      match slobFree h (SLOB_UNIT * b.start) b.size with
      | none => none
      | some h => freeAll h bs

/-- The blocks `bs` have been freed. -/
structure Freed (h h' : Heap) (L L' : Ledger) (bs : List Block) : Prop where
  heap : HeapOk h' L'
  live : L.live.Perm (bs ++ L'.live)
  usedM : h'.usedM + bytes bs = h.usedM
  pcount : h'.pcount + L.held.length = h.pcount + L'.held.length
  held : ∀ pn ∈ L'.held, pn ∈ L.held
  kept : ∀ pn, pn ∉ L.held → (h'.page pn).slab = (h.page pn).slab
  gone : ∀ pn ∈ L.held, pn ∉ L'.held → (h'.page pn).slab = false

section Freeing

variable {h h' h'' : Heap} {L L' L'' : Ledger}

theorem freed_nil (hok : HeapOk h L) : Freed h h L L [] :=
  ⟨hok, .refl _, by simp, rfl, fun _ => id, fun _ _ => rfl, fun _ hpn hnot => absurd hpn hnot⟩

theorem Freed.trans {bs cs : List Block} (h₁ : Freed h h' L L' bs)
    (h₂ : Freed h' h'' L' L'' cs) : Freed h h'' L L'' (bs ++ cs) := by
  refine ⟨h₂.heap, ?_, ?_, ?_, fun pn hpn => h₁.held pn (h₂.held pn hpn), ?_, ?_⟩
  · rw [List.append_assoc]
    exact h₁.live.trans (h₂.live.append_left bs)
  · rw [← h₁.usedM, ← h₂.usedM]
    simp only [bytes, List.map_append, List.sum_append, Nat.cast_add]
    ring
  · have e₁ := h₁.pcount
    have e₂ := h₂.pcount
    linear_combination e₁ + e₂
  · intro pn hpn
    rw [h₂.kept pn fun hin => hpn (h₁.held pn hin), h₁.kept pn hpn]
  · intro pn hpn hnot
    by_cases hin : pn ∈ L'.held
    · exact h₂.gone pn hin hnot
    · rw [h₂.kept pn hin]
      exact h₁.gone pn hpn hin

/-- One block. -/
theorem freed_one (hok : HeapOk h L) {b : Block} (hb : b ∈ L.live) :
    ∃ h' L', slobFree h (SLOB_UNIT * b.start) b.size = some h' ∧ Freed h h' L L' [b] := by
  obtain ⟨h', pg, hrun, hheap, -, hpg, hpage, hadds⟩ := slobFree_spec hok hb
  have hheld := hok.housed b hb
  refine ⟨h', _, hrun, hheap, List.perm_cons_erase hb, ?_, ?_, ?_, ?_, ?_⟩
  · rw [hadds.usedM, bytes_cons, bytes_nil, Nat.add_zero, neg_add_cancel_right]
  · rw [hadds.pcount]
    rcases hpg with rfl | ⟨rfl, -⟩
    · simp [heldWithout]
    · rw [heldWithout, ← List.length_erase_add_one hheld, Option.isSome_some, Bool.toNat_true,
        Nat.cast_add]
      ring
  · intro pn hpn
    rcases hpg with rfl | ⟨rfl, -⟩
    · exact hpn
    · exact List.mem_of_mem_erase hpn
  · intro pn hpn
    rw [hpage pn hpn]
  · intro pn hpn hnot
    rcases hpg with rfl | ⟨rfl, hslab⟩
    · exact absurd hpn hnot
    · obtain rfl : pn = b.pageNo := by
        by_contra hne
        exact hnot ((List.mem_erase_of_ne hne).mpr hpn)
      exact hslab

theorem freeAll_spec (hok : HeapOk h L) {bs : List Block} (hnodup : bs.Nodup)
    (hlive : ∀ b ∈ bs, b ∈ L.live) :
    ∃ h' L', freeAll h bs = some h' ∧ Freed h h' L L' bs := by
  induction bs generalizing h L with
  | nil => exact ⟨h, L, rfl, freed_nil hok⟩
  | cons b bs ih =>
      obtain ⟨hb, hbs⟩ := List.nodup_cons.mp hnodup
      obtain ⟨h₁, L₁, hrun, hone⟩ := freed_one hok (hlive b List.mem_cons_self)
      have hlive₁ : ∀ x ∈ bs, x ∈ L₁.live := by
        intro x hx
        have hmem := hone.live.mem_iff.mp (hlive x (List.mem_cons_of_mem b hx))
        rcases List.mem_cons.mp hmem with rfl | hmem
        · exact absurd hx hb
        · exact hmem
      obtain ⟨h₂, L₂, hrest, hall⟩ := ih hone.heap hbs hlive₁
      refine ⟨h₂, L₂, ?_, hone.trans hall⟩
      rw [freeAll, hrun]
      exact hrest

end Freeing

/-- The page is with a call under way. -/
def Sys.Away {n : Nat} (s : Sys n) (pn : Nat) : Prop := ∃ t, (s.pc t).page = some pn

/-- The page that `slob_new_pages` would answer with, as it comes. -/
def Heap.offered (h : Heap) : Option (Nat × Mem × Page) → Heap
  | none => h
  | some (pn, bytes, desc) => h.loadPage pn bytes desc

theorem HeapOk.offered {h : Heap} {L : Ledger} (hok : HeapOk h L)
    {page : Option (Nat × Mem × Page)} (hpage : ∀ p ∈ page, p.1 ∉ L.held) :
    HeapOk (h.offered page) L := by
  rcases page with _ | ⟨pn, bytes, desc⟩
  · exact hok
  · exact hok.loadPage (hpage _ rfl) bytes desc

section Offered

variable (h : Heap) (page : Option (Nat × Mem × Page))

@[simp] theorem offered_pcount : (h.offered page).pcount = h.pcount := by
  cases page <;> rfl

@[simp] theorem offered_usedM : (h.offered page).usedM = h.usedM := by
  cases page <;> rfl

variable {h page}

/-- A page that comes with the flag it had changes no flag. -/
theorem offered_slab (hpage : ∀ p ∈ page, p.2.2.slab = (h.page p.1).slab) {pn : Nat} :
    ((h.offered page).page pn).slab = (h.page pn).slab := by
  rcases page with _ | ⟨q, bytes, desc⟩
  · rfl
  · by_cases hq : pn = q
    · subst hq
      rw [← hpage _ rfl]
      exact congrArg Page.slab (Heap.setPage_page h pn desc)
    · exact congrArg Page.slab (Heap.setPage_page_ne h q pn desc hq)

end Offered

/-- **Freeing undoes allocating.** From any reachable state, whatever the page
allocator answers, and with whatever is on the page it hands out. -/
theorem free_undoes_alloc (cfg : Config) (n : Nat) (s : Sys n) (hs : (machine cfg n).Reach s)
    (req : Request) (hreq : req.Ok) (page : Option (Nat × Mem × Page))
    (hpage : ∀ p ∈ page, s.Fresh p.1 ∧ p.2.2.slab = false) (b : Nat) (h : Heap)
    (halloc : slobAlloc cfg (s.heap.offered page) req.size req.zero req.align req.node none
      (page.map Prod.fst) = some (some b, h)) :
    ∃ h', slobFree h (SLOB_UNIT * b) req.size = some h' ∧ Alike s.Away s.heap h' := by
  have hok := reach_sysOk hs
  have hok₀ : HeapOk (s.heap.offered page) s.ledger :=
    hok.heap.offered fun p hp => (hpage p hp).1.2.1
  have hpg : ∀ pn, page.map Prod.fst = some pn → 0 < pn ∧ pn ∉ s.ledger.held := by
    intro pn hpn
    obtain ⟨p, rfl, rfl⟩ := Option.map_eq_some_iff.mp hpn
    exact ⟨(hpage p rfl).1.1, (hpage p rfl).1.2.1⟩
  rcases slobAlloc_spec hok₀ cfg req.zero req.node hreq.1 hreq.2 hpg with
    ⟨h₁, hrun, -⟩ | ⟨pg, b₁, h₁, hrun, hpg', hal, hadds⟩
  · rw [hrun] at halloc
    cases halloc
  · rw [hrun] at halloc
    cases halloc
    obtain ⟨h', L', hfree, hf⟩ := freed_one hal.heap List.mem_cons_self
    have hlive : s.ledger.live.Perm L'.live := hf.live.cons_inv
    have hheld := hok.heap.held_perm hf.heap hlive
    have hslab : ∀ p ∈ page, (s.heap.page p.1).slab = false := by
      intro p hp
      obtain ⟨⟨-, hnot, hother⟩, -⟩ := hpage p hp
      by_contra hset
      rcases hok.flagged p.1 (Bool.eq_true_of_not_eq_false hset) with hin | ⟨t, ht⟩
      · exact hnot hin
      · exact hother t ht
    refine ⟨h', hfree, hok.heap.alike hf.heap hlive ?_ hok.flagged ?_ ?_⟩
    · intro pn hpn
      by_cases hin : pn ∈ heldWith s.ledger.held pg
      · -- the page was taken, so it has been given back
        rw [hf.gone pn hin fun hin' => hpn (hheld.mem_iff.mpr hin')]
        rcases hpg' with rfl | rfl
        · exact absurd hin hpn
        · rcases page with _ | p
          · exact absurd hin hpn
          · obtain rfl : pn = p.1 := (List.mem_cons.mp hin).resolve_right hpn
            exact (hslab p rfl).symm
      · rw [hf.kept pn hin, hal.frame.page pn hin]
        exact offered_slab fun p hp => (hpage p hp).2.trans (hslab p hp).symm
    · have hlen : (heldWith s.ledger.held pg).length = s.ledger.held.length + pg.isSome.toNat := by
        cases pg <;> rfl
      have hcount := hf.pcount
      rw [hadds.pcount, offered_pcount, ← hheld.length_eq, hlen, Nat.cast_add] at hcount
      linear_combination hcount
    · have hcount := hf.usedM
      rw [hadds.usedM, offered_usedM, bytes_cons, bytes_nil, Nat.add_zero] at hcount
      exact add_right_cancel hcount

theorem free_undoes_alloc_twoCallers : ∃ s, (machine uniform 2).Reach s ∧
    ∃ b h, slobAlloc uniform s.heap 100 true 64 noNode none none = some (some b, h) ∧
    ∃ h', slobFree h (SLOB_UNIT * b) 100 = some h' ∧ Alike s.Away s.heap h' := by
  have hrun : ((machine uniform 2).replay (boot 2) twoCallers).map (fun s =>
      (slobAlloc uniform s.heap 100 true 64 noNode none none).map Prod.fst) =
      some (some (some 2080)) := by decide +kernel
  obtain ⟨s, hs, hres⟩ := Option.map_eq_some_iff.mp hrun
  obtain ⟨⟨b, h⟩, halloc, rfl⟩ := Option.map_eq_some_iff.mp hres
  have hreach : (machine uniform 2).Reach s := Machine.Reach.replay (.init (booted_boot 2)) hs
  refine ⟨s, hreach, 2080, h, halloc, ?_⟩
  exact free_undoes_alloc uniform 2 s hreach ⟨100, true, 64, noNode⟩ (by decide) none (by simp)
    2080 h halloc

/-- **The order of frees does not matter.** From any reachable state, any
distinct live blocks may be freed in any two orders; the heaps are alike. -/
theorem free_order_irrelevant (cfg : Config) (n : Nat) (s : Sys n)
    (hs : (machine cfg n).Reach s) (bs bs' : List Block) (hnodup : bs.Nodup)
    (hlive : ∀ b ∈ bs, b ∈ s.ledger.live) (hperm : bs.Perm bs') :
    ∃ h h', freeAll s.heap bs = some h ∧ freeAll s.heap bs' = some h' ∧
      Alike s.Away h h' := by
  have hok := reach_sysOk hs
  obtain ⟨h, L, hrun, hf⟩ := freeAll_spec hok.heap hnodup hlive
  obtain ⟨h', L', hrun', hf'⟩ := freeAll_spec hok.heap (hperm.nodup_iff.mp hnodup)
    fun b hb => hlive b (hperm.mem_iff.mpr hb)
  have hleft : L.live.Perm L'.live := by
    have hall := hf.live.symm.trans (hf'.live.trans (hperm.symm.append_right L'.live))
    exact (List.perm_append_left_iff bs).mp hall
  have hheld := hf.heap.held_perm hf'.heap hleft
  refine ⟨h, h', hrun, hrun', hf.heap.alike hf'.heap hleft ?_ ?_ ?_ ?_⟩
  · intro pn hpn
    have hpn' : pn ∉ L'.held := fun hin => hpn (hheld.mem_iff.mpr hin)
    by_cases hin : pn ∈ s.ledger.held
    · rw [hf.gone pn hin hpn, hf'.gone pn hin hpn']
    · rw [hf.kept pn hin, hf'.kept pn hin]
  · intro pn hslab
    by_cases hpn : pn ∈ L.held
    · exact Or.inl hpn
    · right
      by_cases hin : pn ∈ s.ledger.held
      · rw [hf.gone pn hin hpn] at hslab
        cases hslab
      · rw [hf.kept pn hin] at hslab
        exact (hok.flagged pn hslab).resolve_left hin
  · have e := hf.pcount
    have e' := hf'.pcount
    rw [← hheld.length_eq, ← e] at e'
    exact add_right_cancel e'
  · have e := hf.usedM
    have e' := hf'.usedM
    rw [← bytes_perm hperm, ← e] at e'
    exact add_right_cancel e'

theorem free_order_irrelevant_twoCallers : ∃ s, (machine uniform 2).Reach s ∧
    ∃ h h', freeAll s.heap [⟨2048, 10⟩, ⟨2054, 21⟩] = some h ∧
      freeAll s.heap [⟨2054, 21⟩, ⟨2048, 10⟩] = some h' ∧ Alike s.Away h h' := by
  obtain ⟨s, hs, -, hlive, -, -⟩ := twoCallers_end
  refine ⟨s, hs, free_order_irrelevant uniform 2 s hs _ _ (by decide) ?_ (.swap _ _ _)⟩
  rw [hlive]
  decide

end OsProjects.Slob
