import OsProjects.Slob.KmallocRuns

/-!
# Who holds which memory

`kmalloc` and the object caches share one heap and one page allocator. What an object of
either kind rests on is a `Taken`: a block of the SLOB heap, or whole pages next to it.
`Tenancy h L ts` says that `ts` is all that is taken: the ledger's live blocks are those
in `ts`, the pages in `ts` are not SLOB's, and no two of them overlap.

Each way of taking and giving back keeps this, and leaves the bytes of every other holder
as they are (`Keeps`). Nothing here depends on what the memory is used for.
-/

namespace OsProjects.Slob

open Framework

def Taken.block : Taken → Option Block
  | .units b => some b
  | .pages _ _ => none

/-- The page allocator may hand out these pages. -/
def FreshPages (h : Heap) (ts : List Taken) (pn order : Nat) : Prop :=
  0 < pn ∧ pn + 2 ^ order ≤ 2 ^ 20 ∧ (∀ i < 2 ^ order, (h.page (pn + i)).slab = false) ∧
    ∀ t ∈ ts, t.area.Apart ⟨PAGE_SIZE * pn, PAGE_SIZE * 2 ^ order⟩

instance (h : Heap) (ts : List Taken) (pn order : Nat) : Decidable (FreshPages h ts pn order) :=
  inferInstanceAs (Decidable (_ ∧ _ ∧ (∀ i, i < 2 ^ order → _) ∧ _))

/-- Pages that are none of SLOB's. -/
structure PagesOut (L : Ledger) (pn order : Nat) : Prop where
  pos : 0 < pn
  fit : pn + 2 ^ order ≤ 2 ^ 20
  out : ∀ q, pn ≤ q → q < pn + 2 ^ order → q ∉ L.held

structure Tenancy (h : Heap) (L : Ledger) (ts : List Taken) : Prop where
  heap : HeapOk h L
  flagged : ∀ q, (h.page q).slab = true → q ∈ L.held
  bound : ∀ q ∈ L.held, q < 2 ^ 20
  live : L.live.Perm (ts.filterMap Taken.block)
  pages : ∀ pn order, .pages pn order ∈ ts → PagesOut L pn order
  apart : ts.Pairwise fun t t' => t.area.Apart t'.area

/-- The bytes of what is taken are as they were. -/
def Keeps (ts : List Taken) (m m' : Mem) : Prop :=
  ∀ t ∈ ts, ∀ x, t.area.Has x → m' x = m x

section Tenancy

variable {h h' : Heap} {L : Ledger} {ts : List Taken}

theorem Tenancy.mem_live (ht : Tenancy h L ts) {b : Block} : b ∈ L.live ↔ .units b ∈ ts := by
  rw [ht.live.mem_iff, List.mem_filterMap]
  constructor
  · rintro ⟨t, ht, hb⟩
    cases t with
    | units b' => exact Option.some.inj hb ▸ ht
    | pages _ _ => cases hb
  · exact fun hb => ⟨_, hb, rfl⟩

theorem Tenancy.slab_iff (ht : Tenancy h L ts) (q : Nat) :
    (h.page q).slab = true ↔ q ∈ L.held := by
  refine ⟨ht.flagged q, fun hq => ?_⟩
  obtain ⟨c, fl, hp⟩ := ht.heap.pages q hq
  exact hp.slab

theorem FreshPages.out {pn order : Nat} (hf : FreshPages h ts pn order) (ht : Tenancy h L ts) :
    PagesOut L pn order := by
  refine ⟨hf.1, hf.2.1, fun q h1 h2 => ?_⟩
  rw [← ht.slab_iff]
  obtain ⟨i, rfl⟩ := Nat.exists_eq_add_of_le h1
  rw [hf.2.2.1 i (by omega)]
  exact Bool.false_ne_true

/-! ## Bytes of what is taken -/

theorem area_units_has {b : Block} {x : Nat} :
    (Taken.units b).area.Has x ↔ b.ext.Has (x / 2) := by
  simp only [Taken.area, Ext.Has, Ext.stop, Block.ext, SLOB_UNIT]
  omega

theorem virtToPage_byte (x : Nat) : virtToPage (x / 2) = x / PAGE_SIZE := by
  unfold virtToPage
  rw [SLOB_UNITS_PAGE_SIZE]
  unfold PAGE_SIZE
  omega

theorem PagesOut.byte {pn order x : Nat} (hp : PagesOut L pn order)
    (hx : (Taken.pages pn order).area.Has x) : virtToPage (x / 2) ∉ L.held := by
  rw [virtToPage_byte]
  simp only [Taken.area, Ext.Has, Ext.stop] at hx
  unfold PAGE_SIZE at *
  exact hp.out _ (by omega) (by omega)

/-- Writing only free units of a ledger that has these blocks and lacks these pages. -/
theorem keeps_of_writesFree {L' : Ledger} {m m' : Mem} (hw : WritesFree L' m m')
    (hlive : ∀ b, .units b ∈ ts → b ∈ L'.live)
    (hpages : ∀ pn order, .pages pn order ∈ ts → PagesOut L' pn order) : Keeps ts m m' := by
  intro t ht x hx
  cases t with
  | units b => exact hw.block (hlive b ht) (area_units_has.mp hx)
  | pages pn order =>
      by_contra hne
      exact (hpages pn order ht).byte hx (hw x hne).1

theorem Keeps.trans {m m' m'' : Mem} (h1 : Keeps ts m m') (h2 : Keeps ts m' m'') :
    Keeps ts m m'' := fun t ht x hx => (h2 t ht x hx).trans (h1 t ht x hx)

/-- A store into what somebody else has taken. -/
theorem keeps_of_inside {t : Taken} {m m' : Mem} (hap : ∀ t' ∈ ts, t'.area.Apart t.area)
    (hin : ∀ x, ¬ t.area.Has x → m' x = m x) : Keeps ts m m' :=
  fun t' ht' x hx => hin x ((hap t' ht').not_has hx)

/-- Bytes of what is taken are no part of the heap's representation. -/
theorem Tenancy.store (ht : Tenancy h L ts) {t : Taken} (hmem : t ∈ ts) {m : Mem}
    (hin : ∀ x, ¬ t.area.Has x → m x = h.mem x) : Tenancy { h with mem := m } L ts := by
  refine ⟨ht.heap.congr (fun x hx hfree => hin x fun hbyte => ?_) (fun q _ => rfl) rfl,
    ht.flagged, ht.bound, ht.live, ht.pages, ht.apart⟩
  cases t with
  | units b =>
      exact hfree (covers_exts.mpr ⟨b, ht.mem_live.mpr hmem, area_units_has.mp hbyte⟩)
  | pages pn order => exact (ht.pages pn order hmem).byte hbyte hx

theorem Tenancy.same (ht : Tenancy h L ts) (hs : SameHeap h h') : Tenancy h' L ts := by
  refine ⟨ht.heap.same hs, fun q hq => ht.flagged q ?_, ht.bound, ht.live, ht.pages,
    ht.apart⟩
  rw [← hs.page]
  exact hq

/-! ## Taking -/

theorem mem_heldWith {held : List Nat} {pg : Option Nat} {q : Nat} :
    q ∈ heldWith held pg ↔ q ∈ held ∨ q ∈ pg := by
  cases pg with
  | none => simp [heldWith]
  | some pn =>
      rw [heldWith, List.mem_cons, or_comm, Option.mem_some_iff]
      exact or_congr_right eq_comm

/-- `slob_alloc` took a block. -/
theorem Tenancy.takeUnits (ht : Tenancy h L ts) {size align b : Nat} {zero : Bool}
    {pg : Option Nat} (hfresh : ∀ pn ∈ pg, FreshPages h ts pn 0)
    (hal : Allocated h h' L size align zero pg b) :
    Tenancy h' ⟨heldWith L.held pg, ⟨b, size⟩ :: L.live⟩ (.units ⟨b, size⟩ :: ts) ∧
      Keeps ts h.mem h'.mem := by
  have hnew : (⟨b, size⟩ : Block) ∈ ⟨b, size⟩ :: L.live := List.mem_cons_self
  -- a page that was taken for it is none of those in use
  have hpages : ∀ pn order, .pages pn order ∈ ts →
      PagesOut ⟨heldWith L.held pg, ⟨b, size⟩ :: L.live⟩ pn order := by
    intro pn order hmem
    have hout := ht.pages pn order hmem
    refine ⟨hout.pos, hout.fit, fun q h1 h2 hq => ?_⟩
    rcases mem_heldWith.mp hq with hq | hq
    · exact hout.out q h1 h2 hq
    · refine not_page_of_apart (o := ⟨0, 0, .pages pn order⟩) rfl ?_ q h1 h2 rfl
      exact (hfresh q hq).2.2.2 _ hmem
  refine ⟨⟨hal.heap, fun q hq => ?_, fun q hq => ?_, ?_, ?_, ?_⟩, ?_⟩
  · by_contra hnot
    rw [hal.frame.page q hnot] at hq
    exact hnot (mem_heldWith.mpr (Or.inl (ht.flagged q hq)))
  · rcases mem_heldWith.mp hq with hq | hq
    · exact ht.bound q hq
    · exact (hfresh q hq).2.1
  · rw [List.filterMap_cons_some (show Taken.block (.units ⟨b, size⟩) = some ⟨b, size⟩ from rfl)]
    exact ht.live.cons _
  · rintro pn order (_ | ⟨_, hmem⟩)
    exact hpages pn order hmem
  · refine List.pairwise_cons.mpr ⟨fun t hmem => ?_, ht.apart⟩
    cases t with
    | units b' =>
        have hb' := ht.mem_live.mpr hmem
        refine apart_of_blocks (hal.heap.block_apart hnew (List.mem_cons_of_mem _ hb') ?_)
        rintro rfl
        exact hal.heap.not_mem_of_cons hb'
    | pages pn order => exact apart_of_pages hal.heap hnew (hpages pn order hmem).out
  · refine keeps_of_writesFree hal.frame.mem (fun b' hb' => ht.mem_live.mpr hb') ?_
    intro pn order hmem
    have hout := hpages pn order hmem
    exact ⟨hout.pos, hout.fit, hout.out⟩

/-- Pages straight from the page allocator. -/
theorem Tenancy.takePages (ht : Tenancy h L ts) {pn order : Nat}
    (hfresh : FreshPages h ts pn order) : Tenancy h L (.pages pn order :: ts) := by
  refine ⟨ht.heap, ht.flagged, ht.bound, ht.live, ?_, ?_⟩
  · rintro pn' order' (_ | ⟨_, hmem⟩)
    · exact hfresh.out ht
    · exact ht.pages pn' order' hmem
  · exact List.pairwise_cons.mpr ⟨fun t hmem => (hfresh.2.2.2 t hmem).symm, ht.apart⟩

/-! ## Giving back -/

theorem Tenancy.nodup (ht : Tenancy h L ts) : ts.Nodup := by
  refine ht.apart.imp_of_mem fun {t t'} hmem _ hap heq => ?_
  subst heq
  cases t with
  | units b =>
      have hsize := ht.heap.block_size (ht.mem_live.mpr hmem)
      have hpos := SLOB_UNITS_pos hsize.1 hsize.2
      simp only [Taken.area, Ext.Apart, Ext.stop, SLOB_UNIT] at hap
      omega
  | pages pn order =>
      have hpos := Nat.two_pow_pos order
      simp only [Taken.area, Ext.Apart, Ext.stop, PAGE_SIZE] at hap
      omega

theorem mem_heldWithout {held : List Nat} {pg : Option Nat} {q : Nat}
    (hq : q ∈ heldWithout held pg) : q ∈ held := by
  cases pg with
  | none => exact hq
  | some pn => exact List.mem_of_mem_erase hq

/-- `slob_free` gives a block back. -/
theorem Tenancy.giveUnits (ht : Tenancy h L ts) {b : Block} (hmem : .units b ∈ ts) :
    ∃ h' L', slobFree h (SLOB_UNIT * b.start) b.size = some h' ∧
      Tenancy h' L' (ts.erase (.units b)) ∧ Keeps (ts.erase (.units b)) h.mem h'.mem := by
  have hb := ht.mem_live.mpr hmem
  obtain ⟨h', pg, hrun, hheap, hw, hgone, hpage, -⟩ := slobFree_spec ht.heap hb
  have hsub : (ts.erase (.units b)).Sublist ts := List.erase_sublist
  have hlive : (L.live.erase b).Perm ((ts.erase (.units b)).filterMap Taken.block) := by
    have hperm := (List.perm_cons_erase hmem).filterMap Taken.block
    rw [List.filterMap_cons_some (show Taken.block (.units b) = some b from rfl)] at hperm
    exact List.cons_perm_iff_perm_erase.mp (hperm.symm.trans ht.live.symm) |>.2.symm
  refine ⟨h', _, hrun, ⟨hheap, fun q hq => ?_, fun q hq => ht.bound q (mem_heldWithout hq), hlive,
    ?_, ht.apart.sublist hsub⟩, ?_⟩
  · -- a page that is still flagged was held, and is not the one given back
    have hin : q ∈ L.held := by
      by_contra hnot
      rw [hpage q hnot] at hq
      exact hnot (ht.flagged q hq)
    rcases hgone with rfl | ⟨rfl, hslab⟩
    · exact hin
    · refine (List.mem_erase_of_ne ?_).mpr hin
      rintro rfl
      rw [hslab] at hq
      exact Bool.false_ne_true hq
  · intro pn order hp
    have hout := ht.pages pn order (hsub.subset hp)
    exact ⟨hout.pos, hout.fit, fun q h1 h2 hq => hout.out q h1 h2 (mem_heldWithout hq)⟩
  · refine keeps_of_writesFree hw (fun b' hb' => ?_) fun pn order hp => ?_
    · have hne : (Taken.units b') ≠ .units b := fun heq =>
        (ht.nodup.not_mem_erase) (heq ▸ hb')
      refine (List.mem_erase_of_ne fun heq => hne (by rw [heq])).mpr ?_
      exact ht.mem_live.mpr (hsub.subset hb')
    · have hout := ht.pages pn order (hsub.subset hp)
      exact ⟨hout.pos, hout.fit, hout.out⟩

theorem Tenancy.givePages (ht : Tenancy h L ts) (pn order : Nat) :
    Tenancy h L (ts.erase (.pages pn order)) := by
  have hsub : (ts.erase (.pages pn order)).Sublist ts := List.erase_sublist
  refine ⟨ht.heap, ht.flagged, ht.bound, ?_, fun pn order hp => ht.pages pn order (hsub.subset hp),
    ht.apart.sublist hsub⟩
  by_cases hmem : .pages pn order ∈ ts
  · have hperm := (List.perm_cons_erase hmem).filterMap Taken.block
    rw [List.filterMap_cons_none (show Taken.block (.pages pn order) = none from rfl)] at hperm
    exact ht.live.trans hperm
  · rw [List.erase_of_not_mem hmem]
    exact ht.live

/-- **Nothing taken, nothing kept**: SLOB holds no page, and none is on a list. -/
theorem Tenancy.empty (ht : Tenancy h L []) :
    (∀ q, (h.page q).slab = false) ∧ ∀ c, h.list c = [] := by
  have hlive : L.live = [] := ht.live.eq_nil
  have hheld : ∀ q, q ∉ L.held := by
    intro q hq
    refine ht.heap.occupied q hq ?_
    rw [hlive]
    rfl
  constructor
  · intro q
    rw [← Bool.not_eq_true, ht.slab_iff]
    exact hheld q
  · intro c
    refine List.eq_nil_iff_forall_not_mem.mpr fun q hq => ?_
    exact ht.heap.unlisted q (hheld q) c hq

theorem Tenancy.perm (ht : Tenancy h L ts) {ts' : List Taken} (hp : ts.Perm ts') :
    Tenancy h L ts' := by
  refine ⟨ht.heap, ht.flagged, ht.bound, ht.live.trans (hp.filterMap _),
    fun pn order hmem => ?_, ?_⟩
  · exact ht.pages pn order (hp.mem_iff.mpr hmem)
  · exact (hp.pairwise_iff fun hap => hap.symm).mp ht.apart

end Tenancy

end OsProjects.Slob
