import OsProjects.Slob.Caches

/-!
# Every run of the frontends

`FOk s L` is the invariant: what the items took is a `Tenancy`, and every item is as its
frontend left it (`ItemOk`): a `kmalloc` object has its header, a freed object of an RCU
cache has its size in the footer. Both are bytes of what the item took, so that a step
which spares those spares the item (`ItemOk.congr`).

In every state, then, each frontend finds from a pointer alone what was taken for it
(`frontends_objects`), no object changes by what is done to others (`object_kept`), and
once all objects are given back no page is left (`frontends_no_leak`).
-/

namespace OsProjects.Slob

open Framework

/-! ## The invariant -/

structure CacheOk (c : Cache) : Prop where
  pos : 0 < c.objectSize
  size : c.size = c.objectSize + if c.rcu then SLOB_RCU else 0
  lt : c.size < 2 ^ 31
  align : AlignOk c.align

theorem CacheOk.object_le {c : Cache} (h : CacheOk c) : c.objectSize ≤ c.size := by
  rw [h.size]
  exact Nat.le_add_right _ _

/-- What `slob_alloc_node` took for an object of the cache, and where the object is. -/
def Item.Fits (i : Item) (c : Cache) : Prop :=
  match i.took with
  | .units b => b.size = c.size ∧ c.size < PAGE_SIZE ∧ i.ptr = SLOB_UNIT * b.start ∧
      Aligned c.align b.start
  | .pages pn order => PAGE_SIZE ≤ c.size ∧ order = getOrder c.size ∧ i.ptr = PAGE_SIZE * pn

/-- The footer of a freed object. -/
structure Deferred (k : KHeap) (i : Item) (c : Cache) (head : Nat) : Prop where
  rcu : c.rcu = true
  place : head = i.ptr + c.objectSize
  size : readSigned k.slob.mem (head + 8) 4 = c.size

/-- An object of a cache. -/
structure OfCache (cache : Nat → Option Cache) (i : Item) (n : Nat) (c : Cache) : Prop where
  made : cache n = some c
  ok : CacheOk c
  fits : i.Fits c

def ItemOk (align : Nat) (k : KHeap) (cache : Nat → Option Cache) (L : Ledger) (i : Item) : Prop :=
  match i.owner with
  | .kmalloc size => ObjOk align k L ⟨i.ptr, size, i.took⟩
  | .cache n => ∃ c, OfCache cache i n c
  | .rcu n head => ∃ c, OfCache cache i n c ∧ Deferred k i c head

structure FOk (align : Nat) (s : FSys) (L : Ledger) : Prop where
  tenancy : Tenancy s.k.slob L s.taken
  items : ∀ i ∈ s.items, ItemOk align s.k s.cache L i
  caches : ∀ n c, s.cache n = some c → CacheOk c
  noBug : s.bug = false

section One

variable {align : Nat} {k k' : KHeap} {cache cache' : Nat → Option Cache} {L L' : Ledger}
  {ts ts' : List Taken} {i : Item} {c : Cache}

/-! ## One item -/

/-- The bytes of an object of a cache lie in what was taken. -/
theorem Item.Fits.within (hf : i.Fits c) (hok : CacheOk c) {h : Heap} (ht : Tenancy h L ts)
    (hmem : i.took ∈ ts) : i.took.area.start = i.ptr ∧ i.ptr + c.size ≤ i.took.area.stop ∧
      ZERO_SIZE_PTR < i.ptr ∧ i.ptr + c.size ≤ 2 ^ 32 := by
  have hlt := hok.lt
  unfold Item.Fits at hf
  cases htook : i.took with
  | units b =>
      rw [htook] at hf hmem
      obtain ⟨hsize, hsmall, hptr, -⟩ := hf
      have hlive := ht.mem_live.mpr hmem
      have hpos := ht.heap.block_pos hlive
      have hbytes := ht.heap.block_bytes hlive
      have hpage := ht.bound _ (ht.heap.housed b hlive)
      simp only [Taken.area, Ext.stop, ZERO_SIZE_PTR]
      unfold PAGE_SIZE at *
      omega
  | pages pn order =>
      rw [htook] at hf hmem
      obtain ⟨hlarge, rfl, hptr⟩ := hf
      have hout := ht.pages _ _ hmem
      have hpos := hout.pos
      have hfit := hout.fit
      have hle := le_getOrder c.size
      simp only [Taken.area, Ext.stop]
      unfold ZERO_SIZE_PTR
      unfold PAGE_SIZE at *
      refine ⟨hptr.symm, ?_, ?_, ?_⟩
      · omega
      · omega
      · omega

/-- `__kmem_cache_free` gives back what was taken. -/
theorem Item.Fits.freeTarget (hf : i.Fits c) (hok : CacheOk c) :
    freeTarget i.ptr c.size = i.took.handback := by
  have hlt := hok.lt
  unfold Slob.freeTarget
  rw [toUnsigned_natCast (by omega)]
  unfold Item.Fits at hf
  cases htook : i.took with
  | units b =>
      rw [htook] at hf
      rw [if_pos hf.2.1, Taken.handback, hf.1, hf.2.2.1]
  | pages pn order =>
      rw [htook] at hf
      have hpage : pageOf i.ptr = pn := by
        rw [hf.2.2]
        unfold pageOf PAGE_SIZE
        omega
      rw [if_neg (Nat.not_lt.mpr hf.1), Taken.handback, hf.2.1, hpage]

/-- The footer is right behind the object. -/
theorem CacheOk.footer_eq (hok : CacheOk c) (hrcu : c.rcu = true) {b : Nat}
    (hfit : b + c.size ≤ 2 ^ 32) : c.footer b = b + c.objectSize := by
  have hsize := hok.size
  have hlt := hok.lt
  rw [if_pos hrcu] at hsize
  unfold Cache.footer
  unfold SLOB_RCU at *
  omega

/-- The callback finds the object, and gives back what was taken for it. -/
theorem Deferred.target {head : Nat} (hd : Deferred k i c head) (hok : CacheOk c)
    (hf : i.Fits c) (hfit : i.ptr + c.size ≤ 2 ^ 32) :
    rcuTarget k head = i.took.handback := by
  have hsize := hok.size
  have hlt := hok.lt
  rw [if_pos hd.rcu] at hsize
  have hback : (i.ptr + c.objectSize + 2 ^ 32 - (c.size + 2 ^ 32 - SLOB_RCU) % 2 ^ 32) % 2 ^ 32 =
      i.ptr := by
    unfold SLOB_RCU at *
    omega
  rw [← hf.freeTarget hok]
  unfold rcuTarget
  dsimp only
  rw [hd.size, hd.place, toUnsigned_natCast (by omega), hback]

/-- An item survives what leaves alone the bytes it took. -/
theorem ItemOk.congr (ha : ArchOk align) (hi : ItemOk align k cache L i)
    (ht : Tenancy k.slob L ts) (hmem : i.took ∈ ts) (ht' : Tenancy k'.slob L' ts')
    (hmem' : i.took ∈ ts') (hbytes : ∀ x, i.took.area.Has x → k'.slob.mem x = k.slob.mem x)
    (hcomp : ∀ pn order, i.took = .pages pn order → k'.compound pn = k.compound pn)
    (hcache : ∀ n c, cache n = some c → cache' n = some c) : ItemOk align k' cache' L' i := by
  unfold ItemOk at *
  cases howner : i.owner with
  | kmalloc size =>
      rw [howner] at hi
      have hobj : ObjOk align k L ⟨i.ptr, size, i.took⟩ := hi
      refine hobj.congr (fun b htook hb => ?_) fun pn order htook => ?_
      · dsimp only at htook
        unfold ObjOk at hobj
        rw [htook] at hobj hmem' hbytes
        refine ⟨ht'.mem_live.mpr hmem', fun x h1 h2 => hbytes x (area_units_has.mpr ?_)⟩
        have hmin := ha.min
        have hsize := hobj.2.1
        exact Block.has_byte (ht.heap.block_size hb).2 h1 (by omega)
      · dsimp only at htook
        rw [htook] at hmem'
        exact ⟨hcomp pn order htook, fun q h1 h2 _ => (ht'.pages pn order hmem').out q h1 h2⟩
  | cache n =>
      rw [howner] at hi
      obtain ⟨c, hc⟩ := hi
      exact ⟨c, hcache n c hc.made, hc.ok, hc.fits⟩
  | rcu n head =>
      rw [howner] at hi
      obtain ⟨c, hc, hd⟩ := hi
      refine ⟨c, ⟨hcache n c hc.made, hc.ok, hc.fits⟩, hd.rcu, hd.place, ?_⟩
      rw [← hd.size]
      refine readSigned_congr fun x h1 h2 => hbytes x ?_
      obtain ⟨hstart, hstop, -, -⟩ := hc.fits.within hc.ok ht hmem
      have hsize := hc.ok.size
      have hplace := hd.place
      rw [if_pos hd.rcu] at hsize
      unfold SLOB_RCU at hsize
      unfold Ext.Has
      omega

end One

/-! ## Taking -/

section Taking

variable {align : Nat} {cfg : Config} {k k' : KHeap} {L L' : Ledger} {ts : List Taken} {t : Taken}

/-- From `k` to `k'` memory `t` was taken, and nothing else touched. -/
structure Taking (k k' : KHeap) (ts : List Taken) (t : Taken) (L' : Ledger) : Prop where
  tenancy : Tenancy k'.slob L' (t :: ts)
  keeps : Keeps ts k.slob.mem k'.slob.mem
  compound : ∀ pn, (∀ order, t ≠ .pages pn order) → k'.compound pn = k.compound pn

/-- What was just taken is written to. -/
theorem Taking.fill (ht : Taking k k' ts t L') {m : Mem}
    (hin : ∀ x, ¬ t.area.Has x → m x = k'.slob.mem x) :
    Taking k { k' with slob := { k'.slob with mem := m } } ts t L' := by
  refine ⟨ht.tenancy.store List.mem_cons_self hin, ht.keeps.trans ?_, ht.compound⟩
  refine keeps_of_inside (fun t' ht' => ?_) hin
  exact ((List.pairwise_cons.mp ht.tenancy.apart).1 t' ht').symm

/-- Others' pages start elsewhere. -/
theorem Taking.compound_eq (ht : Taking k k' ts t L') {pn order : Nat}
    (hmem : .pages pn order ∈ ts) : k'.compound pn = k.compound pn := by
  refine ht.compound pn fun order' heq => ?_
  have hap := (List.pairwise_cons.mp ht.tenancy.apart).1 _ hmem
  have h1 := Nat.two_pow_pos order
  have h2 := Nat.two_pow_pos order'
  rw [heq] at hap
  simp only [Taken.area, Ext.Apart, Ext.stop, PAGE_SIZE] at hap
  omega

/-- `slob_alloc`, as a frontend calls it. -/
theorem slobAlloc_taking (ht : Tenancy k.slob L ts) (cfg : Config) {size align : Nat}
    (zero : Bool) (node : Int) {pg : Option Nat} (hsize : SizeOk size) (halign : AlignOk align)
    (hfresh : ∀ pn ∈ pg, FreshPages k.slob ts pn 0) :
    (∃ h', slobAlloc cfg k.slob size zero align node none pg = some (none, h') ∧
      SameHeap k.slob h') ∨
    ∃ b h' L', slobAlloc cfg k.slob size zero align node none pg = some (some b, h') ∧
      Taking k { k with slob := h' } ts (.units ⟨b, size⟩) L' ∧ Aligned align b := by
  have hpg : ∀ pn, pg = some pn → 0 < pn ∧ pn ∉ L.held := by
    rintro pn rfl
    have hout := (hfresh pn rfl).out ht
    exact ⟨hout.pos, hout.out pn (Nat.le_refl pn) (Nat.lt_succ_self pn)⟩
  rcases slobAlloc_spec ht.heap cfg zero node hsize halign hpg with
    ⟨h', hrun, -, hs⟩ | ⟨pg', b, h', hrun, hpg', hal, -⟩
  · exact Or.inl ⟨h', hrun, hs⟩
  · have hfresh' : ∀ pn ∈ pg', FreshPages k.slob ts pn 0 := by
      rcases hpg' with rfl | rfl
      · exact nofun
      · exact hfresh
    obtain ⟨ht', hk⟩ := ht.takeUnits hfresh' hal
    exact Or.inr ⟨b, h', _, hrun, ⟨ht', hk, fun _ _ => rfl⟩, hal.aligned⟩

/-- `alloc_pages`, as a frontend calls it. -/
theorem allocPages_taking (ht : Tenancy k.slob L ts) {pn order : Nat} (comp : Bool)
    (hfresh : FreshPages k.slob ts pn order) :
    Taking k (allocPages k pn order comp) ts (.pages pn order) L :=
  ⟨ht.takePages hfresh, fun _ _ _ _ => rfl, fun q hq =>
    Function.update_of_ne (fun heq => hq order (by rw [heq])) _ _⟩

theorem doKmallocNode_spec (ha : ArchOk align) (ht : Tenancy k.slob L ts) (cfg : Config)
    {size : Nat} (zero : Bool) (node : Int) {pg : Option Nat}
    (hfresh : ∀ pn ∈ pg, FreshPages k.slob ts pn (wantedOrder align size)) :
    (∃ p k', doKmallocNode cfg align k size zero node none pg = some (p, k') ∧
      kmallocTakes cfg align k size zero node none pg = none ∧ SameHeap k.slob k'.slob ∧
      k'.compound = k.compound) ∨
    ∃ p k' t L', doKmallocNode cfg align k size zero node none pg = some (p, k') ∧
      kmallocTakes cfg align k size zero node none pg = some t ∧ Taking k k' ts t L' ∧
      ObjOk align k' L' ⟨p, size, t⟩ := by
  unfold doKmallocNode kmallocTakes
  unfold wantedOrder at hfresh
  have hrefl : SameHeap k.slob k.slob := ⟨rfl, rfl, rfl, rfl, rfl, rfl⟩
  by_cases hsmall : isSmall align size = true
  · rw [if_pos hsmall, if_pos hsmall]
    rw [if_pos hsmall] at hfresh
    have hsum := (ha.isSmall_iff size).mp hsmall
    by_cases h0 : size = 0
    · rw [if_pos h0, if_pos h0]
      exact Or.inl ⟨_, _, rfl, rfl, hrefl, rfl⟩
    · rw [if_neg h0, if_neg h0, Nat.mod_eq_of_lt (by omega)]
      have hsize : SizeOk (size + align) := ⟨by omega, Nat.le_of_lt hsum⟩
      rcases slobAlloc_taking ht cfg zero node hsize ha.alignOk hfresh with
        ⟨h', hrun, hs⟩ | ⟨b, h', L', hrun, htake, hal⟩
      · rw [hrun]
        exact Or.inl ⟨_, _, rfl, rfl, hs, rfl⟩
      · rw [hrun]
        have hlive := htake.tenancy.mem_live.mpr List.mem_cons_self
        have hmin := ha.min
        refine Or.inr ⟨_, _, _, L', rfl, rfl, htake.fill fun x hx => ?_, hlive, rfl,
          Nat.pos_of_ne_zero h0, rfl, hal.resolve_left (by omega), ?_⟩
        · refine writeLE_frame _ _ _ _ _ ?_
          by_contra hnot
          refine hx (area_units_has.mpr (Block.has_byte hsize.2 ?_ ?_)) <;> dsimp only <;> omega
        · dsimp only
          rw [readLE_writeLE]
          exact Nat.mod_eq_of_lt (by omega)
  · rw [if_neg hsmall, if_neg hsmall]
    rw [if_neg hsmall] at hfresh
    cases pg with
    | none => exact Or.inl ⟨_, _, rfl, rfl, hrefl, rfl⟩
    | some pn =>
        have htake := allocPages_taking ht (getOrder size ≠ 0) (hfresh pn rfl)
        have hout := htake.tenancy.pages pn (getOrder size) List.mem_cons_self
        refine Or.inr ⟨_, _, _, L, rfl, rfl, htake, hout.pos, rfl, hout.fit, le_getOrder size, ?_,
          hout.out⟩
        unfold allocPages
        by_cases h0 : getOrder size = 0 <;> simp [h0]

theorem slobAllocNode_spec (ht : Tenancy k.slob L ts) (cfg : Config) {c : Cache}
    (hok : CacheOk c) (zero : Bool) (node : Int) {pg : Option Nat}
    (hfresh : ∀ pn ∈ pg, FreshPages k.slob ts pn c.wantedOrder) (n : Nat) :
    (∃ p k', slobAllocNode cfg c k zero node none pg = some (p, k') ∧
      cacheTakes cfg c k zero node none pg = none ∧ SameHeap k.slob k'.slob ∧
      k'.compound = k.compound) ∨
    ∃ p k' t L', slobAllocNode cfg c k zero node none pg = some (p, k') ∧
      cacheTakes cfg c k zero node none pg = some t ∧ Taking k k' ts t L' ∧
      (⟨p, t, .cache n⟩ : Item).Fits c := by
  unfold slobAllocNode cacheTakes
  unfold Cache.wantedOrder at hfresh
  have hrefl : SameHeap k.slob k.slob := ⟨rfl, rfl, rfl, rfl, rfl, rfl⟩
  -- the constructor keeps to the object
  have hctor {k' : KHeap} {t : Taken} {L' : Ledger} {b : Nat} (htake : Taking k k' ts t L')
      (hf : (⟨b, t, .cache n⟩ : Item).Fits c) :
      ∀ x, ¬ t.area.Has x → c.construct k'.slob.mem b x = k'.slob.mem x := by
    intro x hx
    obtain ⟨hstart, hstop, -, -⟩ := hf.within hok htake.tenancy List.mem_cons_self
    have hle := hok.object_le
    unfold Cache.construct
    cases c.ctor with
    | none => rfl
    | some f =>
        refine if_neg fun hin => hx ?_
        unfold Ext.Has
        dsimp only at hstart hstop
        omega
  have hpos := hok.pos
  have hle := hok.object_le
  by_cases hsmall : c.size < PAGE_SIZE
  · rw [if_pos hsmall, if_pos hsmall]
    rw [if_pos hsmall] at hfresh
    rcases slobAlloc_taking ht cfg zero node ⟨by omega, hsmall.le⟩ hok.align hfresh with
      ⟨h', hrun, hs⟩ | ⟨b, h', L', hrun, htake, hal⟩
    · rw [hrun]
      exact Or.inl ⟨_, _, rfl, rfl, hs, rfl⟩
    · rw [hrun]
      have hf : (⟨SLOB_UNIT * b, .units ⟨b, c.size⟩, .cache n⟩ : Item).Fits c :=
        ⟨rfl, hsmall, rfl, hal⟩
      exact Or.inr ⟨_, _, _, L', rfl, rfl, htake.fill (hctor htake hf), hf⟩
  · rw [if_neg hsmall, if_neg hsmall]
    rw [if_neg hsmall] at hfresh
    cases pg with
    | none => exact Or.inl ⟨_, _, rfl, rfl, hrefl, rfl⟩
    | some pn =>
        have htake := allocPages_taking ht false (hfresh pn rfl)
        have hf : (⟨PAGE_SIZE * pn, .pages pn (getOrder c.size), .cache n⟩ : Item).Fits c :=
          ⟨Nat.le_of_not_lt hsmall, rfl, rfl⟩
        exact Or.inr ⟨_, _, _, L, rfl, rfl, htake.fill (hctor htake hf), hf⟩

end Taking

/-! ## Steps -/

/-- The step does not end the object at `p` or write to it. A free that is deferred does
neither. -/
def LeavesObject (p : Nat) (s : FSys) : FLabel → Prop
  | .kfree i | .callback i | .write i _ _ => i.ptr ≠ p
  | .free i _ => i.ptr = p → (s.cacheOf i).map Cache.rcu = some true
  | _ => True

instance (p : Nat) (s : FSys) (a : FLabel) : Decidable (LeavesObject p s a) :=
  match a with
  | .kfree i | .callback i | .write i _ _ => inferInstanceAs (Decidable (i.ptr ≠ p))
  | .free i _ =>
      inferInstanceAs (Decidable (i.ptr = p → (s.cacheOf i).map Cache.rcu = some true))
  | .kmalloc .. | .create .. | .alloc .. => inferInstanceAs (Decidable True)

/-- The object is still there, with the same contents. -/
def ObjectKept (s s' : FSys) (i : Item) : Prop :=
  ∃ i' ∈ s'.items, i'.ptr = i.ptr ∧ i'.took = i.took ∧ s'.object i' = s.object i ∧
    ∀ x, (s.object i).Has x → s'.k.slob.mem x = s.k.slob.mem x

section Steps

variable {align : Nat} {cfg : Config} {s s' : FSys} {L : Ledger} {i j : Item}

theorem FOk.took_mem (hi : i ∈ s.items) : i.took ∈ s.taken := List.mem_map_of_mem hi

/-- One item and the rest. -/
theorem FOk.split (hok : FOk align s L) (hi : i ∈ s.items) :
    Tenancy s.k.slob L (i.took :: (s.items.erase i).map Item.took) :=
  hok.tenancy.perm ((List.perm_cons_erase hi).map Item.took)

theorem FOk.apart_rest (hok : FOk align s L) (hi : i ∈ s.items) (hj : j ∈ s.items.erase i) :
    j.took.area.Apart i.took.area :=
  ((List.pairwise_cons.mp (hok.split hi).apart).1 _ (List.mem_map_of_mem hj)).symm

theorem mem_cases (hi : i ∈ s.items) (hj : j ∈ s.items) : j = i ∨ j ∈ s.items.erase i :=
  List.mem_cons.mp ((List.perm_cons_erase hi).mem_iff.mp hj)

theorem object_kmalloc {size : Nat} (howner : i.owner = .kmalloc size) :
    s.object i = ⟨i.ptr, size⟩ := by
  rw [FSys.object, howner]

theorem object_cache {n : Nat} {c : Cache}
    (howner : i.owner = .cache n ∨ ∃ head, i.owner = .rcu n head)
    (hmade : s.cache n = some c) : s.object i = ⟨i.ptr, c.objectSize⟩ := by
  have hof : s.cacheOf i = some c := by
    rcases howner with howner | ⟨head, howner⟩ <;> rw [FSys.cacheOf, howner] <;> exact hmade
  rcases howner with howner | ⟨head, howner⟩ <;> rw [FSys.object, howner] <;> dsimp only <;>
    rw [hof] <;> rfl

theorem OfCache.object_in {n : Nat} {c : Cache} (hc : OfCache s.cache i n c) {ts : List Taken}
    (ht : Tenancy s.k.slob L ts) (hmem : i.took ∈ ts) {x : Nat}
    (hx : (⟨i.ptr, c.objectSize⟩ : Ext).Has x) : i.took.area.Has x := by
  obtain ⟨hstart, hstop, -, -⟩ := hc.fits.within hc.ok ht hmem
  have hle := hc.ok.object_le
  unfold Ext.Has at *
  dsimp only [Ext.stop] at hx
  omega

/-- The object lies in what was taken for it. -/
theorem FOk.object_in (hok : FOk align s L) (hi : i ∈ s.items) {x : Nat}
    (hx : (s.object i).Has x) : i.took.area.Has x := by
  have hitem := hok.items i hi
  have hmem := FOk.took_mem hi
  unfold ItemOk at hitem
  cases howner : i.owner with
  | kmalloc size =>
      rw [howner] at hitem
      rw [object_kmalloc howner] at hx
      have hobj : ObjOk align s.k L ⟨i.ptr, size, i.took⟩ := hitem
      unfold ObjOk at hobj
      simp only [Ext.Has, Ext.stop] at hx
      cases htook : i.took with
      | units b =>
          rw [htook] at hobj
          have hptr := hobj.2.2.2.1
          have hsize := hobj.2.1
          have hle := (hok.tenancy.heap.block_size hobj.1).2
          refine area_units_has.mpr (Block.has_byte hle ?_ ?_) <;> dsimp only at * <;> omega
      | pages pn order =>
          rw [htook] at hobj
          have hptr := hobj.2.1
          have hsize := hobj.2.2.2.1
          simp only [Taken.area, Ext.Has, Ext.stop]
          dsimp only at *
          omega
  | cache n =>
      rw [howner] at hitem
      obtain ⟨c, hc⟩ := hitem
      rw [object_cache (.inl howner) hc.made] at hx
      exact hc.object_in hok.tenancy hmem hx
  | rcu n head =>
      rw [howner] at hitem
      obtain ⟨c, hc, -⟩ := hitem
      rw [object_cache (.inr ⟨head, howner⟩) hc.made] at hx
      exact hc.object_in hok.tenancy hmem hx

/-- The same item after a step that spares its bytes. -/
theorem FOk.kept (hok : FOk align s L) (hi : i ∈ s.items) (hi' : i ∈ s'.items)
    (hobj : s'.object i = s.object i)
    (hbytes : ∀ x, i.took.area.Has x → s'.k.slob.mem x = s.k.slob.mem x) : ObjectKept s s' i :=
  ⟨i, hi', rfl, rfl, hobj, fun x hx => hbytes x (hok.object_in hi hx)⟩

/-- What a step comes to: the invariant, and the objects that it leaves. -/
def StepOk (align : Nat) (s s' : FSys) (leaves : Item → Prop) : Prop :=
  ∃ L', FOk align s' L' ∧ ∀ i ∈ s.items, leaves i → ObjectKept s s' i

/-- Memory was taken for a new item. -/
theorem FOk.add (ha : ArchOk align) (hok : FOk align s L) {k : KHeap} {new : Item} {L' : Ledger}
    (ht : Taking s.k k s.taken new.took L') (hnew : ItemOk align k s.cache L' new) :
    StepOk align s { s with k := k, items := new :: s.items } fun _ => True := by
  have hbytes : ∀ j ∈ s.items, ∀ x, j.took.area.Has x → k.slob.mem x = s.k.slob.mem x :=
    fun j hj => ht.keeps _ (FOk.took_mem hj)
  refine ⟨L', ⟨ht.tenancy, List.forall_mem_cons.mpr ⟨hnew, fun j hj => ?_⟩, hok.caches, hok.noBug⟩,
    fun j hj _ => hok.kept hj (List.mem_cons_of_mem _ hj) rfl (hbytes j hj)⟩
  refine (hok.items j hj).congr ha hok.tenancy (FOk.took_mem hj) ht.tenancy
    (List.mem_cons_of_mem _ (FOk.took_mem hj)) (hbytes j hj) (fun pn order htook => ?_)
    fun _ _ h => h
  exact ht.compound_eq (htook ▸ FOk.took_mem hj)

/-- Nothing was taken. -/
theorem FOk.same (ha : ArchOk align) (hok : FOk align s L) {k : KHeap}
    (hs : SameHeap s.k.slob k.slob) (hcomp : k.compound = s.k.compound) :
    StepOk align s { s with k := k } fun _ => True := by
  have hbytes (x : Nat) : k.slob.mem x = s.k.slob.mem x := congrFun hs.mem x
  have ht := hok.tenancy.same hs
  refine ⟨L, ⟨ht, fun j hj => ?_, hok.caches, hok.noBug⟩,
    fun j hj _ => hok.kept hj hj rfl fun x _ => hbytes x⟩
  exact (hok.items j hj).congr ha hok.tenancy (FOk.took_mem hj) ht (FOk.took_mem hj)
    (fun x _ => hbytes x) (fun pn order _ => congrFun hcomp pn) fun _ _ h => h

/-- What an item took is given back. -/
theorem FOk.give (ha : ArchOk align) (hok : FOk align s L) (hi : i ∈ s.items) :
    StepOk align s (s.give i i.took.handback) fun j => j ≠ i := by
  have hsplit := hok.split hi
  -- the heap and the ledger without it
  obtain ⟨k, L', hgive, ht, hkeeps, hcomp⟩ : ∃ k L', giveBack s.k i.took.handback = some k ∧
      Tenancy k.slob L' ((s.items.erase i).map Item.took) ∧
      Keeps ((s.items.erase i).map Item.took) s.k.slob.mem k.slob.mem ∧
      k.compound = s.k.compound := by
    cases htook : i.took with
    | units b =>
        rw [htook] at hsplit
        obtain ⟨h', L', hrun, ht, hk⟩ := hsplit.giveUnits List.mem_cons_self
        rw [List.erase_cons_head] at ht hk
        refine ⟨{ s.k with slob := h' }, L', ?_, ht, hk, rfl⟩
        rw [Taken.handback, giveBack, hrun]
    | pages pn order =>
        rw [htook] at hsplit
        have ht := hsplit.givePages pn order
        rw [List.erase_cons_head] at ht
        exact ⟨s.k, L, rfl, ht, fun _ _ _ _ => rfl, rfl⟩
  rw [FSys.give, hgive]
  have hbytes : ∀ j ∈ s.items.erase i, ∀ x, j.took.area.Has x → k.slob.mem x = s.k.slob.mem x :=
    fun j hj => hkeeps _ (List.mem_map_of_mem hj)
  refine ⟨L', ⟨ht, fun j hj => ?_, hok.caches, hok.noBug⟩, fun j hj hne => ?_⟩
  · have hj' := List.mem_of_mem_erase hj
    exact (hok.items j hj').congr ha hok.tenancy (FOk.took_mem hj') ht (List.mem_map_of_mem hj)
      (hbytes j hj) (fun pn order _ => congrFun hcomp pn) fun _ _ h => h
  · have hj' := (mem_cases hi hj).resolve_left hne
    exact hok.kept hj hj' rfl (hbytes j hj')

/-- An item is replaced by one with the same memory, and its own bytes are written. -/
theorem FOk.store (ha : ArchOk align) (hok : FOk align s L) (hi : i ∈ s.items) {m : Mem}
    (hin : ∀ x, ¬ i.took.area.Has x → m x = s.k.slob.mem x) {i' : Item} {items : List Item}
    (htook : i'.took = i.took) (hperm : (i' :: s.items.erase i).Perm items)
    (hnew : ItemOk align { s.k with slob := { s.k.slob with mem := m } } s.cache L i') :
    FOk align { s with
      k := { s.k with slob := { s.k.slob with mem := m } }
      items := items } L := by
  have ht : Tenancy { s.k.slob with mem := m } L (items.map Item.took) := by
    refine ((hok.split hi).store List.mem_cons_self hin).perm ?_
    rw [← htook]
    exact hperm.map Item.took
  refine ⟨ht, fun j hj => ?_, hok.caches, hok.noBug⟩
  rcases List.mem_cons.mp (hperm.mem_iff.mpr hj) with rfl | hj'
  · exact hnew
  · have hold := List.mem_of_mem_erase hj'
    refine (hok.items j hold).congr ha hok.tenancy (FOk.took_mem hold) ht (List.mem_map_of_mem hj)
      (fun x hx => hin x ((hok.apart_rest hi hj').not_has hx)) (fun _ _ _ => rfl) fun _ _ h => h

/-! ### The `kmalloc` side -/

def Item.obj (i : Item) : Option Obj :=
  match i.owner with
  | .kmalloc size => some ⟨i.ptr, size, i.took⟩
  | _ => none

theorem mem_obj {o : Obj} (h : i.obj = some o) :
    i.owner = .kmalloc o.size ∧ i.ptr = o.ptr ∧ i.took = o.took := by
  unfold Item.obj at h
  split at h
  · rename_i size howner
    obtain rfl := Option.some.inj h
    exact ⟨howner, rfl, rfl⟩
  · cases h

/-- `kmalloc` by itself sees a state of its own. -/
theorem FOk.kview (hok : FOk align s L) :
    KOk align ⟨s.k, s.items.filterMap Item.obj, false⟩ L := by
  refine ⟨hok.tenancy.heap, hok.tenancy.flagged, fun o ho => ?_, ?_, rfl⟩
  · obtain ⟨i, hi, hobj⟩ := List.mem_filterMap.mp ho
    obtain ⟨howner, hptr, htook⟩ := mem_obj hobj
    have hitem := hok.items i hi
    rw [ItemOk, howner] at hitem
    rw [hptr, htook] at hitem
    exact hitem
  · refine List.Pairwise.filterMap Item.obj ?_ (List.pairwise_map.mp hok.tenancy.apart)
    intro i j hap o ho o' ho'
    rw [← (mem_obj ho).2.2, ← (mem_obj ho').2.2]
    exact hap

theorem FOk.observed (ha : ArchOk align) (hok : FOk align s L) (hi : i ∈ s.items) {size : Nat}
    (howner : i.owner = .kmalloc size) : Observed align s.k ⟨i.ptr, size, i.took⟩ := by
  refine hok.kview.observed ha (List.mem_filterMap.mpr ⟨i, hi, ?_⟩)
  rw [Item.obj, howner]

/-- What a frontend would give back for an item, from what the item's owner hands it. -/
def FSys.target (align : Nat) (s : FSys) (i : Item) : Handback :=
  match i.owner with
  | .kmalloc _ => kfreeTarget align s.k i.ptr
  | .cache n => freeTarget i.ptr (((s.cache n).map Cache.size).getD 0)
  | .rcu _ head => rcuTarget s.k head

/-- **Every frontend finds what was taken.** -/
theorem FOk.target_eq (ha : ArchOk align) (hok : FOk align s L) (hi : i ∈ s.items) :
    s.target align i = i.took.handback := by
  have hitem := hok.items i hi
  unfold FSys.target
  unfold ItemOk at hitem
  cases howner : i.owner with
  | kmalloc size => exact (hok.observed ha hi howner).target
  | cache n =>
      rw [howner] at hitem
      obtain ⟨c, hc⟩ := hitem
      dsimp only
      rw [hc.made]
      exact hc.fits.freeTarget hc.ok
  | rcu n head =>
      rw [howner] at hitem
      obtain ⟨c, hc, hd⟩ := hitem
      exact hd.target hc.ok hc.fits (hc.fits.within hc.ok hok.tenancy (FOk.took_mem hi)).2.2.2

/-! ### Stores -/

theorem step_objectWrite (ha : ArchOk align) (hok : FOk align s L) {off : Nat} {byte : UInt8}
    (hn : fnext cfg align s (.write i off byte) = some s') :
    StepOk align s s' fun j => i.ptr ≠ j.ptr := by
  rw [fnext] at hn
  split at hn
  case isFalse => cases hn
  case isTrue hg =>
    obtain ⟨-, hi, hoff⟩ := hg
    obtain rfl := Option.some.inj hn
    have hitem := hok.items i hi
    -- the byte is one of the item's, and neither in a header nor in a footer
    obtain ⟨hin, hnew⟩ : i.took.area.Has (i.ptr + off) ∧
        ItemOk align { s.k with slob := { s.k.slob with
          mem := Function.update s.k.slob.mem (i.ptr + off) byte } } s.cache L i := by
      unfold FSys.room at hoff
      unfold ItemOk at *
      cases howner : i.owner with
      | kmalloc size =>
          rw [howner] at hitem hoff
          have hrange := (hok.observed ha hi howner).within
            ⟨i.ptr, (ksize align s.k i.ptr).getD 0⟩ List.mem_cons_self
          refine ⟨?_, ?_⟩
          · simp only [Ext.Within, Ext.stop] at hrange
            simp only [Ext.Has, Ext.stop]
            dsimp only at *
            omega
          · have hobj : ObjOk align s.k L ⟨i.ptr, size, i.took⟩ := hitem
            refine hobj.congr (fun b htook hb => ⟨hb, fun x h1 h2 => ?_⟩)
              fun _ _ _ => ⟨rfl, fun _ _ _ hq => hq⟩
            dsimp only at htook
            unfold ObjOk at hobj
            rw [htook] at hobj
            have hmin := ha.min
            have hptr := hobj.2.2.2.1
            dsimp only at hptr
            exact Function.update_of_ne (by omega) _ _
      | cache n =>
          rw [howner] at hitem hoff
          obtain ⟨c, hc⟩ := hitem
          dsimp only at hoff
          rw [object_cache (.inl howner) hc.made] at hoff
          dsimp only at hoff
          refine ⟨hc.object_in hok.tenancy (FOk.took_mem hi) ?_, c, hc⟩
          simp only [Ext.Has, Ext.stop]
          omega
      | rcu n head =>
          rw [howner] at hitem hoff
          obtain ⟨c, hc, hd⟩ := hitem
          dsimp only at hoff
          rw [object_cache (.inr ⟨head, howner⟩) hc.made] at hoff
          dsimp only at hoff
          refine ⟨hc.object_in hok.tenancy (FOk.took_mem hi) ?_, c, hc, hd.rcu, hd.place, ?_⟩
          · simp only [Ext.Has, Ext.stop]
            omega
          · rw [← hd.size]
            have hplace := hd.place
            exact readSigned_congr fun x h1 h2 => Function.update_of_ne (by omega) _ _
    have hothers : ∀ x, ¬ i.took.area.Has x →
        Function.update s.k.slob.mem (i.ptr + off) byte x = s.k.slob.mem x := by
      intro x hx
      refine Function.update_of_ne ?_ _ _
      rintro rfl
      exact hx hin
    refine ⟨L, hok.store ha hi hothers rfl (List.perm_cons_erase hi).symm hnew, fun j hj hne => ?_⟩
    have hj' := (mem_cases hi hj).resolve_left fun heq => hne (by rw [heq])
    exact hok.kept hj hj rfl fun x hx => hothers x ((hok.apart_rest hi hj').not_has hx)

/-- The free that is put off: the footer is filled in, the object itself left as it is. -/
theorem step_defer (ha : ArchOk align) (hok : FOk align s L) (hi : i ∈ s.items) {n link : Nat}
    {c : Cache} (howner : i.owner = .cache n) (hmade : s.cache n = some c) (hrcu : c.rcu = true) :
    StepOk align s { s with
      k := deferFree c s.k i.ptr link
      items := { i with owner := .rcu n (c.footer i.ptr) } :: s.items.erase i } fun _ => True := by
  have hitem := hok.items i hi
  unfold ItemOk at hitem
  rw [howner] at hitem
  obtain ⟨c', hc⟩ := hitem
  obtain rfl : c = c' := Option.some.inj (hmade.symm.trans hc.made)
  have hsize := hc.ok.size
  rw [if_pos hrcu] at hsize
  obtain ⟨hstart, hstop, -, hfit⟩ := hc.fits.within hc.ok hok.tenancy (FOk.took_mem hi)
  have hfooter := hc.ok.footer_eq hrcu hfit
  -- only the footer is written
  have hframe : ∀ x, x < i.ptr + c.objectSize ∨ i.ptr + c.objectSize + SLOB_RCU ≤ x →
      (deferFree c s.k i.ptr link).slob.mem x = s.k.slob.mem x := by
    intro x hx
    unfold SLOB_RCU at hx
    unfold deferFree
    dsimp only
    rw [hfooter, writeLE_frame _ _ _ _ _ (by omega), writeLE_frame _ _ _ _ _ (by omega)]
  have hin : ∀ x, ¬ i.took.area.Has x →
      (deferFree c s.k i.ptr link).slob.mem x = s.k.slob.mem x := by
    intro x hx
    refine hframe x ?_
    unfold Ext.Has at hx
    omega
  have hread :
      readSigned (deferFree c s.k i.ptr link).slob.mem (c.footer i.ptr + 8) 4 = c.size := by
    have hlt := hc.ok.lt
    have hword : readLE (deferFree c s.k i.ptr link).slob.mem (c.footer i.ptr + 8) 4 = c.size := by
      unfold deferFree
      dsimp only
      rw [readLE_congr fun x h1 h2 => writeLE_frame _ _ _ _ _ (by omega), readLE_writeLE]
      exact Nat.mod_eq_of_lt (by omega)
    rw [readSigned, hword]
    exact Int.bmod_eq_of_le_mul_two (by omega) (by omega)
  have hnew : ItemOk align (deferFree c s.k i.ptr link) s.cache L
      { i with owner := .rcu n (c.footer i.ptr) } :=
    ⟨c, ⟨hmade, hc.ok, hc.fits⟩, hrcu, hfooter, hread⟩
  have htook : ({ i with owner := .rcu n (c.footer i.ptr) } : Item).took = i.took := rfl
  refine ⟨L, hok.store ha hi hin htook (List.Perm.refl _) hnew, fun j hj _ => ?_⟩
  rcases mem_cases hi hj with rfl | hj'
  · have hobj := object_cache (s := s) (.inl howner) hmade
    refine ⟨_, List.mem_cons_self, rfl, rfl, ?_, fun x hx => hframe x (.inl ?_)⟩
    · rw [hobj]
      exact object_cache (s := { s with k := _, items := _ }) (.inr ⟨_, rfl⟩) hmade
    · rw [hobj] at hx
      exact hx.2
  · exact hok.kept hj (List.mem_cons_of_mem _ hj') rfl
      fun x hx => hin x ((hok.apart_rest hi hj').not_has hx)

/-! ### All steps -/

theorem step_fkmalloc (ha : ArchOk align) (hok : FOk align s L) {size : Nat} {zero : Bool}
    {node : Int} {pg : Option Nat}
    (hn : fnext cfg align s (.kmalloc size zero node pg) = some s') :
    StepOk align s s' fun _ => True := by
  rw [fnext] at hn
  split at hn
  case isFalse => cases hn
  case isTrue hg =>
    rcases doKmallocNode_spec ha hok.tenancy cfg zero node hg.2.2 with
      ⟨p, k, hrun, htakes, hs, hcomp⟩ | ⟨p, k, t, L', hrun, htakes, htake, hobj⟩
    · rw [hrun, htakes] at hn
      obtain rfl := Option.some.inj hn
      exact hok.same ha hs hcomp
    · rw [hrun, htakes] at hn
      obtain rfl := Option.some.inj hn
      have hnew : ItemOk align k s.cache L' ⟨p, t, .kmalloc size⟩ := hobj
      exact hok.add ha htake hnew

theorem step_alloc (ha : ArchOk align) (hok : FOk align s L) {n : Nat} {zero : Bool} {node : Int}
    {pg : Option Nat} (hn : fnext cfg align s (.alloc n zero node pg) = some s') :
    StepOk align s s' fun _ => True := by
  rw [fnext] at hn
  split at hn
  · cases hn
  · rename_i c hmade
    split at hn
    case isFalse => cases hn
    case isTrue hg =>
      have hc := hok.caches n c hmade
      rcases slobAllocNode_spec hok.tenancy cfg hc zero node hg.2 n with
        ⟨p, k, hrun, htakes, hs, hcomp⟩ | ⟨p, k, t, L', hrun, htakes, htake, hfits⟩
      · rw [hrun, htakes] at hn
        obtain rfl := Option.some.inj hn
        exact hok.same ha hs hcomp
      · rw [hrun, htakes] at hn
        obtain rfl := Option.some.inj hn
        have hnew : ItemOk align k s.cache L' ⟨p, t, .cache n⟩ := ⟨c, hmade, hc, hfits⟩
        exact hok.add ha htake hnew

theorem cacheOk_create {objectSize calign : Nat} {rcu : Bool} {ctor : Option (Nat → Nat → UInt8)}
    (h : CreateOk objectSize calign) : CacheOk (kmemCacheCreate objectSize calign rcu ctor) := by
  obtain ⟨hpos, hle, halign⟩ := h
  refine ⟨hpos, ?_, ?_, halign⟩
  · cases rcu with
    | false => rfl
    | true =>
        change (objectSize + SLOB_RCU) % 2 ^ 32 = objectSize + SLOB_RCU
        unfold SLOB_RCU
        omega
  · cases rcu with
    | false =>
        change objectSize < 2 ^ 31
        omega
    | true =>
        change (objectSize + SLOB_RCU) % 2 ^ 32 < 2 ^ 31
        unfold SLOB_RCU
        omega

theorem step_create (ha : ArchOk align) (hok : FOk align s L) {n objectSize calign : Nat}
    {rcu : Bool} {ctor : Option (Nat → Nat → UInt8)}
    (hn : fnext cfg align s (.create n objectSize calign rcu ctor) = some s') :
    StepOk align s s' fun _ => True := by
  rw [fnext] at hn
  split at hn
  case isFalse => cases hn
  case isTrue hg =>
    obtain ⟨-, hfree, hparams⟩ := hg
    obtain rfl := Option.some.inj hn
    have hkeep : ∀ m c, s.cache m = some c → Function.update s.cache n
        (some (kmemCacheCreate objectSize calign rcu ctor)) m = some c := by
      intro m c hm
      rw [Function.update_of_ne ?_, hm]
      rintro rfl
      rw [hm] at hfree
      cases hfree
    refine ⟨L, ⟨hok.tenancy, fun j hj => ?_, fun m c hm => ?_, hok.noBug⟩, fun j hj _ => ?_⟩
    · exact (hok.items j hj).congr ha hok.tenancy (FOk.took_mem hj) hok.tenancy (FOk.took_mem hj)
        (fun _ _ => rfl) (fun _ _ _ => rfl) hkeep
    · dsimp only at hm
      by_cases hmn : m = n
      · rw [hmn, Function.update_self, Option.some.injEq] at hm
        rw [← hm]
        exact cacheOk_create hparams
      · rw [Function.update_of_ne hmn] at hm
        exact hok.caches m c hm
    · refine hok.kept hj hj ?_ fun _ _ => rfl
      have hitem := hok.items j hj
      unfold ItemOk at hitem
      cases howner : j.owner with
      | kmalloc size => rw [object_kmalloc howner, object_kmalloc howner]
      | cache m =>
          rw [howner] at hitem
          obtain ⟨c, hc⟩ := hitem
          rw [object_cache (.inl howner) hc.made, object_cache (.inl howner) (hkeep m c hc.made)]
      | rcu m head =>
          rw [howner] at hitem
          obtain ⟨c, hc, -⟩ := hitem
          rw [object_cache (.inr ⟨head, howner⟩) hc.made,
            object_cache (.inr ⟨head, howner⟩) (hkeep m c hc.made)]

/-- Giving an item back, as far as the others are concerned. -/
theorem FOk.give_target (ha : ArchOk align) (hok : FOk align s L) (hi : i ∈ s.items) :
    StepOk align s (s.give i (s.target align i)) fun j => i.ptr ≠ j.ptr := by
  rw [hok.target_eq ha hi]
  obtain ⟨L', hok', hrest⟩ := hok.give ha hi
  exact ⟨L', hok', fun j hj hne => hrest j hj fun heq => hne (by rw [heq])⟩

/-- **Every step keeps the invariant**, and the objects it leaves. -/
theorem FOk.step (ha : ArchOk align) (hok : FOk align s L) {a : FLabel}
    (hn : fnext cfg align s a = some s') : StepOk align s s' fun j => LeavesObject j.ptr s a := by
  have hall (h : StepOk align s s' fun _ => True) :
      StepOk align s s' fun j => LeavesObject j.ptr s a := by
    obtain ⟨L', hok', hrest⟩ := h
    exact ⟨L', hok', fun j hj _ => hrest j hj trivial⟩
  cases a with
  | kmalloc size zero node pg => exact hall (step_fkmalloc ha hok hn)
  | create n objectSize calign rcu ctor => exact hall (step_create ha hok hn)
  | alloc n zero node pg => exact hall (step_alloc ha hok hn)
  | write i off byte => exact step_objectWrite ha hok hn
  | kfree i =>
      rw [fnext] at hn
      split at hn
      · rename_i size howner
        rw [Option.ite_none_right_eq_some] at hn
        obtain ⟨⟨-, hi⟩, hn⟩ := hn
        obtain rfl := Option.some.inj hn
        have h := hok.give_target ha hi
        rw [FSys.target, howner] at h
        exact h
      · cases hn
  | callback i =>
      rw [fnext] at hn
      split at hn
      · rename_i n head howner
        rw [Option.ite_none_right_eq_some] at hn
        obtain ⟨⟨-, hi⟩, hn⟩ := hn
        obtain rfl := Option.some.inj hn
        have h := hok.give_target ha hi
        rw [FSys.target, howner] at h
        exact h
      · cases hn
  | free i link =>
      rw [fnext] at hn
      split at hn
      · rename_i n howner
        split at hn
        · cases hn
        · rename_i c hmade
          rw [Option.ite_none_right_eq_some] at hn
          obtain ⟨⟨-, hi⟩, hn⟩ := hn
          split at hn <;> obtain rfl := Option.some.inj hn
          · rename_i hrcu
            exact hall (step_defer ha hok hi howner hmade hrcu)
          · rename_i hrcu
            have h := hok.give_target ha hi
            rw [FSys.target, howner] at h
            dsimp only at h
            rw [hmade] at h
            obtain ⟨L', hok', hrest⟩ := h
            refine ⟨L', hok', fun j hj hleaves => hrest j hj fun heq => ?_⟩
            have hcache := hleaves heq
            rw [FSys.cacheOf, howner] at hcache
            dsimp only at hcache
            rw [hmade] at hcache
            exact hrcu (Option.some.inj hcache)
      · cases hn

end Steps

/-! ## Runs -/

section Runs

variable {align : Nat} {cfg : Config} {s s' : FSys} {L : Ledger} {i : Item}

theorem fOk_booted (hs : FBooted s) : FOk align s ⟨[], []⟩ := by
  refine ⟨⟨heapOk_empty hs.list, fun q hq => ?_, nofun, ?_, ?_, ?_⟩, ?_, fun n c hn => ?_, hs.bug⟩
  · rw [hs.slab] at hq
    cases hq
  · rw [FSys.taken, hs.items]
    exact List.Perm.nil
  · rw [FSys.taken, hs.items]
    nofun
  · rw [FSys.taken, hs.items]
    exact List.Pairwise.nil
  · rw [hs.items]
    nofun
  · rw [hs.cache] at hn
    cases hn

theorem reach_fOk (ha : ArchOk align) (hs : (frontends cfg align).Reach s) :
    ∃ L, FOk align s L := by
  refine @Machine.ReachVia.invariant _ _ _ _ (fun s => ∃ L, FOk align s L) ?_ ?_ s hs
  · exact fun s h0 => ⟨_, fOk_booted h0⟩
  · rintro s a s' ⟨L, hok⟩ _ hn
    obtain ⟨L', hok', -⟩ := hok.step ha hn
    exact ⟨L', hok'⟩

/-- An object that no step ends or writes to is still there after a run, unchanged. -/
theorem FOk.replay_kept (ha : ArchOk align) {as : List FLabel} (hok : FOk align s L)
    (hi : i ∈ s.items) (hrun : (frontends cfg align).replay s as = some s')
    (hleaves : (frontends cfg align).StepsMeet (LeavesObject i.ptr) s as) : ObjectKept s s' i := by
  induction as generalizing s L i with
  | nil =>
      obtain rfl := Option.some.inj hrun
      exact ⟨i, hi, rfl, rfl, rfl, fun _ _ => rfl⟩
  | cons a as ih =>
      obtain ⟨t, hn, hrest⟩ := Machine.replay_cons hrun
      obtain ⟨L', hok', hkept⟩ := hok.step ha hn
      obtain ⟨i₁, hi₁, hptr, htook, hobj, hbytes⟩ := hkept i hi hleaves.1
      obtain ⟨i₂, hi₂, hptr₂, htook₂, hobj₂, hbytes₂⟩ :=
        ih hok' hi₁ hrest (hptr ▸ hleaves.2 t hn)
      refine ⟨i₂, hi₂, hptr₂.trans hptr, htook₂.trans htook, hobj₂.trans hobj, fun x hx => ?_⟩
      rw [hbytes₂ x (hobj ▸ hx), hbytes x hx]

end Runs

/-! ## Results -/

/-- What an item is made of: what its users may touch, and what the frontend keeps there. -/
def FSys.parts (align : Nat) (s : FSys) (i : Item) : List Ext :=
  match i.owner with
  | .kmalloc size => ranges align s.k ⟨i.ptr, size, i.took⟩
  | .cache n | .rcu n _ =>
      match s.cache n with
      | none => []
      | some c => ⟨i.ptr, c.objectSize⟩ :: if c.rcu then [⟨c.footer i.ptr, SLOB_RCU⟩] else []

/-- The alignment that was asked for. -/
def FSys.alignOf (align : Nat) (s : FSys) (i : Item) : Nat :=
  match i.owner with
  | .kmalloc _ => align
  | .cache n | .rcu n _ => ((s.cache n).map Cache.align).getD 0

section Results

variable {align : Nat} {cfg : Config} {s s' : FSys} {L : Ledger} {i : Item} {n : Nat} {c : Cache}

theorem Item.Fits.aligned (hf : i.Fits c) (hok : CacheOk c) : c.align = 0 ∨ c.align ∣ i.ptr := by
  unfold Item.Fits at hf
  cases htook : i.took with
  | units b =>
      rw [htook] at hf
      obtain ⟨-, -, hptr, hal⟩ := hf
      rw [hptr]
      exact hal
  | pages pn order =>
      rw [htook] at hf
      obtain ⟨-, -, hptr⟩ := hf
      rw [hptr]
      rcases hok.align with h0 | ⟨j, hj, hpow⟩
      · exact Or.inl h0
      · right
        rw [hpow]
        exact (Nat.pow_dvd_pow 2 hj).mul_right pn

/-- Object and footer share what was taken. -/
theorem OfCache.parts (hc : OfCache s.cache i n c) (ht : Tenancy s.k.slob L s.taken)
    (hi : i ∈ s.items) {parts : List Ext}
    (hparts : parts = ⟨i.ptr, c.objectSize⟩ ::
      if c.rcu then [⟨c.footer i.ptr, SLOB_RCU⟩] else []) :
    (∀ r ∈ parts, r.Within i.took.area.start i.took.area.stop) ∧ parts.Pairwise Ext.Apart := by
  obtain ⟨hstart, hstop, -, hfit⟩ := hc.fits.within hc.ok ht (FOk.took_mem hi)
  have hsize := hc.ok.size
  have hle := hc.ok.object_le
  have hobject : (⟨i.ptr, c.objectSize⟩ : Ext).Within i.took.area.start i.took.area.stop := by
    simp only [Ext.Within, Ext.stop] at hstop ⊢
    omega
  subst hparts
  by_cases hrcu : c.rcu = true
  · rw [if_pos hrcu] at hsize ⊢
    rw [hc.ok.footer_eq hrcu hfit]
    refine ⟨List.forall_mem_cons.mpr ⟨hobject, List.forall_mem_singleton.mpr ?_⟩,
      List.pairwise_pair.mpr ?_⟩
    · simp only [Ext.Within, Ext.stop] at hstop ⊢
      omega
    · exact Or.inl (Nat.le_refl _)
  · rw [if_neg hrcu]
    exact ⟨List.forall_mem_singleton.mpr hobject, List.pairwise_singleton _ _⟩

theorem FOk.parts (ha : ArchOk align) (hok : FOk align s L) (hi : i ∈ s.items) :
    (∀ r ∈ s.parts align i, r.Within i.took.area.start i.took.area.stop) ∧
      (s.parts align i).Pairwise Ext.Apart := by
  have hitem := hok.items i hi
  unfold ItemOk at hitem
  unfold FSys.parts
  cases howner : i.owner with
  | kmalloc size =>
      have hobs := hok.observed ha hi howner
      exact ⟨hobs.within, hobs.disjoint⟩
  | cache n =>
      rw [howner] at hitem
      obtain ⟨c, hc⟩ := hitem
      dsimp only
      rw [hc.made]
      exact hc.parts hok.tenancy hi rfl
  | rcu n head =>
      rw [howner] at hitem
      obtain ⟨c, hc, -⟩ := hitem
      dsimp only
      rw [hc.made]
      exact hc.parts hok.tenancy hi rfl

theorem FOk.aligned (ha : ArchOk align) (hok : FOk align s L) (hi : i ∈ s.items) :
    s.alignOf align i = 0 ∨ s.alignOf align i ∣ i.ptr := by
  have hitem := hok.items i hi
  unfold ItemOk at hitem
  unfold FSys.alignOf
  cases howner : i.owner with
  | kmalloc size => exact Or.inr (hok.observed ha hi howner).aligned
  | cache n =>
      rw [howner] at hitem
      obtain ⟨c, hc⟩ := hitem
      dsimp only
      rw [hc.made]
      exact hc.fits.aligned hc.ok
  | rcu n head =>
      rw [howner] at hitem
      obtain ⟨c, hc, -⟩ := hitem
      dsimp only
      rw [hc.made]
      exact hc.fits.aligned hc.ok

end Results

def fboot : FSys := ⟨⟨bootHeap, fun _ => 0⟩, fun _ => none, [], false⟩

theorem fbooted_fboot : FBooted fboot := ⟨fun _ => rfl, fun _ => rfl, fun _ => rfl, rfl, rfl⟩

/-- **Both frontends on one heap.** In every state that calls, RCU callbacks and stores into
objects lead to: no `BUG_ON` was hit; every object is aligned as asked for; `kfree`,
`kmem_cache_free` and the callback of a freed object would each give back just what was
taken for it; and objects, size headers and RCU footers of all of them are pairwise
disjoint. -/
theorem frontends_objects (cfg : Config) (align : Nat) (hpow : ∃ j ≤ 12, align = 2 ^ j)
    (hmin : 4 ≤ align) (s : FSys) (hs : (frontends cfg align).Reach s) :
    s.bug = false ∧
    (∀ i ∈ s.items, (s.alignOf align i = 0 ∨ s.alignOf align i ∣ i.ptr) ∧
      s.target align i = i.took.handback) ∧
    (s.items.flatMap (s.parts align)).Pairwise Ext.Apart := by
  have ha : ArchOk align := ⟨hpow, hmin⟩
  obtain ⟨L, hok⟩ := reach_fOk ha hs
  refine ⟨hok.noBug, fun i hi => ⟨hok.aligned ha hi, hok.target_eq ha hi⟩,
    List.pairwise_flatMap.mpr ⟨fun i hi => (hok.parts ha hi).2, ?_⟩⟩
  refine (List.pairwise_map.mp hok.tenancy.apart).imp_of_mem ?_
  intro i j hi hj hap x hx y hy
  have h1 := (hok.parts ha hi).1 x hx
  have h2 := (hok.parts ha hj).1 y hy
  unfold Ext.Within at h1 h2
  unfold Ext.Apart at *
  omega

/-- An RCU cache of 20-byte objects and a cache of two-page objects beside `kmalloc`. -/
def mixedRun : List FLabel :=
  [.create 0 20 8 true none, .create 1 5000 0 false none, .alloc 0 false noNode (some 1),
    .kmalloc 10 false noNode none, .alloc 1 false noNode (some 5), .alloc 0 true noNode none]

/-- The two RCU objects. -/
def firstObject (owner : Owner) : Item := ⟨4096, .units ⟨2048, 32⟩, owner⟩
def secondObject (owner : Owner) : Item := ⟨4152, .units ⟨2076, 32⟩, owner⟩

theorem frontends_objects_mixed : ∃ s, (frontends uniform 8).Reach s ∧ s.items.length = 4 ∧
    firstObject (.rcu 0 4116) ∈ s.items ∧
    s.target 8 (firstObject (.rcu 0 4116)) = .units 4096 32 := by
  have hrun : ((frontends uniform 8).replay fboot
      (mixedRun ++ [.free (firstObject (.cache 0)) 0])).map
      (fun s => decide (s.items.length = 4 ∧ firstObject (.rcu 0 4116) ∈ s.items)) = some true := by
    decide +kernel
  obtain ⟨s, hs, hend⟩ := Option.map_eq_some_iff.mp hrun
  obtain ⟨hlen, hmem⟩ := of_decide_eq_true hend
  have hreach : (frontends uniform 8).Reach s := Machine.Reach.replay (.init fbooted_fboot) hs
  exact ⟨s, hreach, hlen, hmem,
    ((frontends_objects uniform 8 ⟨3, by decide, rfl⟩ (by decide) s hreach).2.1 _ hmem).2⟩

/-- **An object is its users' own.** Whatever is called and stored in the meantime: as long
as the object itself is neither given back nor written to, it stays where it is with the
bytes it had. For an object of an RCU cache this includes `kmem_cache_free`, up to the
callback. -/
theorem object_kept (cfg : Config) (align : Nat) (hpow : ∃ j ≤ 12, align = 2 ^ j)
    (hmin : 4 ≤ align) (s s' : FSys) (hs : (frontends cfg align).Reach s) (i : Item)
    (hi : i ∈ s.items) (as : List FLabel) (hrun : (frontends cfg align).replay s as = some s')
    (hleaves : (frontends cfg align).StepsMeet (LeavesObject i.ptr) s as) :
    ObjectKept s s' i := by
  obtain ⟨L, hok⟩ := reach_fOk ⟨hpow, hmin⟩ hs
  exact hok.replay_kept ⟨hpow, hmin⟩ hi hrun hleaves

/-- Calls after the first object is freed, among them a store into the second. -/
def afterFree : List FLabel :=
  [.free (firstObject (.cache 0)) 77, .kmalloc 100 true noNode none,
    .write (secondObject (.cache 0)) 3 9, .kmalloc 6000 false noNode (some 9)]

theorem object_kept_deferred : ∃ s s', (frontends uniform 8).replay fboot
      (mixedRun ++ [.write (firstObject (.cache 0)) 19 5]) = some s ∧
    (frontends uniform 8).replay s afterFree = some s' ∧
    ObjectKept s s' (firstObject (.cache 0)) := by
  have hrun : ((frontends uniform 8).replay fboot
      (mixedRun ++ [.write (firstObject (.cache 0)) 19 5])).map
      (fun s => decide (firstObject (.cache 0) ∈ s.items ∧
        ((frontends uniform 8).replay s afterFree).isSome ∧
        (frontends uniform 8).StepsMeet (LeavesObject 4096) s afterFree)) = some true := by
    decide +kernel
  obtain ⟨s, hs, hend⟩ := Option.map_eq_some_iff.mp hrun
  obtain ⟨hmem, hsome, hleaves⟩ := of_decide_eq_true hend
  obtain ⟨s', hs'⟩ := Option.isSome_iff_exists.mp hsome
  have hreach : (frontends uniform 8).Reach s := Machine.Reach.replay (.init fbooted_fboot) hs
  exact ⟨s, s', hs, hs', object_kept uniform 8 ⟨3, by decide, rfl⟩ (by decide) s s' hreach _ hmem
    afterFree hs' hleaves⟩

/-- **Nothing stays behind.** When every object is given back and every callback has run,
SLOB has returned all its pages. -/
theorem frontends_no_leak (cfg : Config) (align : Nat) (hpow : ∃ j ≤ 12, align = 2 ^ j)
    (hmin : 4 ≤ align) (s : FSys) (hs : (frontends cfg align).Reach s) (hnone : s.items = []) :
    (∀ pn, (s.k.slob.page pn).slab = false) ∧ ∀ c, s.k.slob.list c = [] := by
  obtain ⟨L, hok⟩ := reach_fOk ⟨hpow, hmin⟩ hs
  have ht := hok.tenancy
  rw [FSys.taken, hnone] at ht
  exact ht.empty

/-- Everything is given back; the callbacks run last, the second object's first. -/
def drain : List FLabel :=
  [.free (firstObject (.cache 0)) 0, .kfree ⟨4136, .units ⟨2064, 18⟩, .kmalloc 10⟩,
    .free ⟨20480, .pages 5 1, .cache 1⟩ 0, .free (secondObject (.cache 0)) 0,
    .callback (secondObject (.rcu 0 4172)), .callback (firstObject (.rcu 0 4116))]

theorem frontends_no_leak_drained : ∃ s, (frontends uniform 8).replay fboot
      (mixedRun ++ drain) = some s ∧ s.items = [] ∧ ∀ pn, (s.k.slob.page pn).slab = false := by
  have hrun : ((frontends uniform 8).replay fboot (mixedRun ++ drain)).map FSys.items =
      some [] := by
    decide +kernel
  obtain ⟨s, hs, hnone⟩ := Option.map_eq_some_iff.mp hrun
  have hreach : (frontends uniform 8).Reach s := Machine.Reach.replay (.init fbooted_fboot) hs
  exact ⟨s, hs, hnone,
    (frontends_no_leak uniform 8 ⟨3, by decide, rfl⟩ (by decide) s hreach hnone).1⟩

end OsProjects.Slob
