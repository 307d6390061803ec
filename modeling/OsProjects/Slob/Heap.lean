import OsProjects.Slob.PageFree

/-!
# The SLOB heap: `slob_alloc` and `slob_free`

Lines 93-131, 223-271 and 277-479 of `slob.c`. The heap is page memory, the
page descriptors, the three lists of partially free pages and the counters.
`struct page *` is a page number, `void *` a byte address, `slob_t *` a unit
index (`Blocks.lean`). `unsigned long` and `int` are 32 bits.

`slob_alloc` and `slob_free` are cut where `slob_lock` is dropped: each
critical section is a function of its own, so that calls can be interleaved
(`System.lean`) or run in one go (`slobAlloc`, `slobFree`). A result of `none`
is a `BUG_ON`, or a walk over a corrupt list that does not end.
-/

namespace OsProjects.Slob

open Framework

/-! ## Descriptors, lists, counters -/

def SLOB_BREAK1 : Nat := 256
def SLOB_BREAK2 : Nat := 1024

/-- The lists of partially free pages. -/
inductive SlobList where
  | small
  | medium
  | large
deriving DecidableEq, Repr

/-- `slob_list`, chosen from the size of a request (lines 288-293, 434-439). -/
def slobListOf (size : Nat) : SlobList :=
  if size < SLOB_BREAK1 then .small
  else if size < SLOB_BREAK2 then .medium
  else .large

/-- The fields and flags of `struct page` that SLOB uses. -/
structure Page where
  units : Int
  freelist : Nat
  slab : Bool       -- `PageSlab`
  slobFree : Bool   -- `PageSlobFree`
deriving DecidableEq, Repr

structure Heap where
  mem : Mem
  page : Nat → Page
  list : SlobList → List Nat
  pcount : BitVec 32
  free : BitVec 32
  usedM : BitVec 32
  claimedM : BitVec 32

/-- The counters other than `free` agree. -/
structure SameCounters (h h' : Heap) : Prop where
  pcount : h'.pcount = h.pcount
  usedM : h'.usedM = h.usedM
  claimedM : h'.claimedM = h.claimedM

theorem SameCounters.trans {h h' h'' : Heap} (h1 : SameCounters h h')
    (h2 : SameCounters h' h'') : SameCounters h h'' :=
  ⟨h2.pcount.trans h1.pcount, h2.usedM.trans h1.usedM, h2.claimedM.trans h1.claimedM⟩

/-- What is added to `used_m`, `pcount` and `claimed_m`. -/
structure Adds (h h' : Heap) (used pages claimed : BitVec 32) : Prop where
  usedM : h'.usedM = h.usedM + used
  pcount : h'.pcount = h.pcount + pages
  claimedM : h'.claimedM = h.claimedM + claimed

theorem SameCounters.adds {h h' : Heap} (hs : SameCounters h h') : Adds h h' 0 0 0 := by
  refine ⟨?_, ?_, ?_⟩
  · rw [hs.usedM, add_zero]
  · rw [hs.pcount, add_zero]
  · rw [hs.claimedM, add_zero]

theorem Adds.trans {h h' h'' : Heap} {u u' p p' c c' : BitVec 32} (h₁ : Adds h h' u p c)
    (h₂ : Adds h' h'' u' p' c') : Adds h h'' (u + u') (p + p') (c + c') := by
  refine ⟨?_, ?_, ?_⟩
  · rw [h₂.usedM, h₁.usedM, add_assoc]
  · rw [h₂.pcount, h₁.pcount, add_assoc]
  · rw [h₂.claimedM, h₁.claimedM, add_assoc]

/-- Conversion of an `int` to `size_t`, as in comparisons with `SLOB_UNITS`. -/
def toUnsigned (v : Int) : Nat := (v % 4294967296).toNat

theorem toUnsigned_natCast {n : Nat} (h : n < 4294967296) : toUnsigned n = n := by
  unfold toUnsigned
  omega

namespace Heap

def setPage (h : Heap) (sp : Nat) (p : Page) : Heap :=
  { h with page := Function.update h.page sp p }

/-- `set_slob_page_free`: `list_add` puts the page at the head of the list. -/
def setSlobPageFree (h : Heap) (sp : Nat) (c : SlobList) : Heap :=
  { h.setPage sp { h.page sp with slobFree := true } with
    list := Function.update h.list c (sp :: h.list c) }

/-- `clear_slob_page_free`: `list_del` takes the page off whichever list it is
on. -/
def clearSlobPageFree (h : Heap) (sp : Nat) : Heap :=
  { h.setPage sp { h.page sp with slobFree := false } with
    list := fun c => (h.list c).erase sp }

/-- What the free-list code sees of page `sp`. -/
def view (h : Heap) (sp : Nat) : View := ⟨h.mem, (h.page sp).freelist⟩

def setView (h : Heap) (sp : Nat) (v : View) : Heap :=
  { h.setPage sp { h.page sp with freelist := v.freelist } with mem := v.mem }

variable (h : Heap) (sp q : Nat) (p : Page) (c d : SlobList) (v : View)

@[simp] theorem setPage_mem : (h.setPage sp p).mem = h.mem := rfl
@[simp] theorem setPage_list : (h.setPage sp p).list = h.list := rfl

@[simp] theorem setPage_page : (h.setPage sp p).page sp = p := by
  simp [setPage]

@[simp] theorem setPage_page_ne (hq : q ≠ sp) : (h.setPage sp p).page q = h.page q := by
  simp [setPage, hq]

@[simp] theorem setSlobPageFree_mem : (h.setSlobPageFree sp c).mem = h.mem := rfl

@[simp] theorem setSlobPageFree_page :
    (h.setSlobPageFree sp c).page sp = { h.page sp with slobFree := true } :=
  h.setPage_page sp _

@[simp] theorem setSlobPageFree_page_ne (hq : q ≠ sp) :
    (h.setSlobPageFree sp c).page q = h.page q :=
  h.setPage_page_ne sp q _ hq

theorem mem_setSlobPageFree :
    q ∈ (h.setSlobPageFree sp c).list d ↔ (d = c ∧ q = sp) ∨ q ∈ h.list d := by
  by_cases hd : d = c
  · subst hd
    simp [setSlobPageFree]
  · simp [setSlobPageFree, hd]

theorem nodup_setSlobPageFree (hsp : ∀ d, sp ∉ h.list d) (hnodup : ∀ d, (h.list d).Nodup) :
    ((h.setSlobPageFree sp c).list d).Nodup := by
  by_cases hd : d = c
  · subst hd
    simpa [setSlobPageFree] using ⟨hsp d, hnodup d⟩
  · simpa [setSlobPageFree, hd] using hnodup d

@[simp] theorem clearSlobPageFree_mem : (h.clearSlobPageFree sp).mem = h.mem := rfl

@[simp] theorem clearSlobPageFree_list :
    (h.clearSlobPageFree sp).list c = (h.list c).erase sp := rfl

@[simp] theorem clearSlobPageFree_page :
    (h.clearSlobPageFree sp).page sp = { h.page sp with slobFree := false } :=
  h.setPage_page sp _

@[simp] theorem clearSlobPageFree_page_ne (hq : q ≠ sp) :
    (h.clearSlobPageFree sp).page q = h.page q :=
  h.setPage_page_ne sp q _ hq

@[simp] theorem setView_mem : (h.setView sp v).mem = v.mem := rfl
@[simp] theorem setView_list : (h.setView sp v).list = h.list := rfl

@[simp] theorem setView_page :
    (h.setView sp v).page sp = { h.page sp with freelist := v.freelist } :=
  h.setPage_page sp _

@[simp] theorem setView_page_ne (hq : q ≠ sp) : (h.setView sp v).page q = h.page q :=
  h.setPage_page_ne sp q _ hq

@[simp] theorem setView_view : (h.setView sp v).view sp = v := by
  simp [view]

end Heap

/-- `virt_to_page` of a `slob_t *`. -/
def virtToPage (b : Nat) : Nat := b / SLOB_UNITS PAGE_SIZE

/-! ## `slob_page_alloc` -/

/-- `sp->units -= units; if (!sp->units) clear_slob_page_free(sp);` -/
def debitUnits (h : Heap) (sp units : Nat) : Heap :=
  let h := h.setPage sp { h.page sp with units := (h.page sp).units - units }
  if (h.page sp).units = 0 then h.clearSlobPageFree sp else h

section Debit

variable (h : Heap) (sp q n : Nat)

@[simp] theorem debitUnits_mem : (debitUnits h sp n).mem = h.mem := by
  unfold debitUnits
  dsimp only
  split <;> rfl

theorem debitUnits_counters : SameCounters h (debitUnits h sp n) := by
  unfold debitUnits
  dsimp only
  split <;> exact ⟨rfl, rfl, rfl⟩

@[simp] theorem debitUnits_page_ne (hq : q ≠ sp) :
    (debitUnits h sp n).page q = h.page q := by
  unfold debitUnits
  dsimp only
  split <;> simp [hq]

/-- What the descriptor of the page looks like afterwards. -/
theorem debitUnits_page :
    (debitUnits h sp n).page sp = { h.page sp with
      units := (h.page sp).units - n
      slobFree := if (h.page sp).units - n = 0 then false else (h.page sp).slobFree } := by
  unfold debitUnits
  dsimp only
  rw [Heap.setPage_page]
  split
  · simp
  · simp

@[simp] theorem debitUnits_view : (debitUnits h sp n).view sp = h.view sp := by
  simp [Heap.view, debitUnits_page]

theorem debitUnits_list (c : SlobList) :
    (debitUnits h sp n).list c =
      if (h.page sp).units - n = 0 then (h.list c).erase sp else h.list c := by
  unfold debitUnits
  dsimp only
  rw [Heap.setPage_page]
  split <;> rfl

end Debit

/-- Allocate a slob block within a given slob page `sp`. -/
def slobPageAlloc (h : Heap) (sp size align : Nat) : Option (Option Nat × Heap) :=
  match pageAlloc (h.view sp) (SLOB_UNITS size) align with
  | none => none
  | some none => some (none, h)
  | some (some (b, v)) => some (some b, debitUnits (h.setView sp v) sp (SLOB_UNITS size))

/-! ## `slob_alloc` -/

/-- `NUMA_NO_NODE`. -/
def noNode : Int := -1

/-- The build: `CONFIG_NUMA` and `page_to_nid`. -/
structure Config where
  numa : Bool
  nid : Nat → Int

/-- Under `CONFIG_NUMA`, pages of another node than the one asked for are
skipped. -/
def Config.skips (cfg : Config) (node : Int) (sp : Nat) : Bool :=
  cfg.numa && node != noNode && cfg.nid sp != node

/-- The scan loop of `slob_alloc` (lines 297-336) over the pages of one list;
the accumulator is `sp_alt`. -/
def scanPages (cfg : Config) (h : Heap) (size : Nat) (node : Int) :
    List Nat → Option Nat → Option Nat
  | [], spAlt => spAlt
  | sp :: rest, spAlt =>
      if cfg.skips node sp then scanPages cfg h size node rest spAlt
      else if toUnsigned (h.page sp).units < SLOB_UNITS size then
        scanPages cfg h size node rest spAlt
      else
        let alt := spAlt.getD sp
        if (h.page sp).units < (h.page alt).units then
          scanPages cfg h size node rest (some sp)
        else scanPages cfg h size node rest (some alt)

/-- `free += sp->units` for each page of one list. -/
def addFreeUnits (h : Heap) (c : SlobList) (free : BitVec 32) : BitVec 32 :=
  (h.list c).foldl (fun acc sp => acc + BitVec.ofInt 32 (h.page sp).units) free

/-- The three counting loops (lines 343-359). -/
def recountFree (h : Heap) : Heap :=
  let free := addFreeUnits h .small h.free
  let free := addFreeUnits h .medium free
  { h with free := addFreeUnits h .large free }

/-- The first critical section of `slob_alloc`, with `free = 0` before it.
`spAlt` is what the uninitialised local `sp_alt` happens to hold. -/
def slobAllocSearch (cfg : Config) (h : Heap) (size align : Nat) (node : Int)
    (spAlt : Option Nat) : Option (Option Nat × Heap) :=
  let h := { h with free := 0 }
  let attempt :=
    match scanPages cfg h size node (h.list (slobListOf size)) spAlt with
    | none => some (none, h)
    | some sp => slobPageAlloc h sp size align
  match attempt with
  | none => none
  | some (b, h) => some (b, recountFree h)

/-- `__SetPageSlab` on the page just obtained. -/
def markSlab (h : Heap) (sp : Nat) : Heap := h.setPage sp { h.page sp with slab := true }

/-- The second critical section of `slob_alloc` (lines 371-379): the new page
at `b` is one free block on the list of the request, which is then served from
it; `BUG_ON(!b)`. -/
def slobAllocInsert (h : Heap) (b size align : Nat) : Option (Nat × Heap) :=
  let sp := virtToPage b
  let units := SLOB_UNITS PAGE_SIZE
  let h := h.setPage sp { h.page sp with units := units, freelist := b }
  let h := { h with mem := setSlob h.mem b units (b + units) }
  let h := h.setSlobPageFree sp (slobListOf size)
  match slobPageAlloc h sp size align with
  | some (some b, h) => some (b, h)
  | _ => none

/-- The end of `slob_alloc`, outside the lock: accounting for a new page,
zeroing, accounting for the block. -/
def slobAllocFinish (h : Heap) (b size : Nat) (zero newPage : Bool) : Heap :=
  let h := if newPage then
      { h with pcount := h.pcount + 1, claimedM := h.claimedM + BitVec.ofNat 32 PAGE_SIZE }
    else h
  let h := if zero then { h with mem := fillBytes h.mem (SLOB_UNIT * b) size 0 } else h
  { h with usedM := h.usedM + BitVec.ofNat 32 size }

theorem adds_finish (h : Heap) (b size : Nat) (zero new : Bool) :
    Adds h (slobAllocFinish h b size zero new) size new.toNat (PAGE_SIZE * new.toNat) := by
  cases new <;> cases zero <;> simp [slobAllocFinish] <;> constructor <;> simp

/-- `slob_alloc` run in one go. `zero` is `gfp & __GFP_ZERO`; `pg` is what
`slob_new_pages` answers if it is asked: the page's number, or `NULL`. -/
def slobAlloc (cfg : Config) (h : Heap) (size : Nat) (zero : Bool) (align : Nat)
    (node : Int) (spAlt pg : Option Nat) : Option (Option Nat × Heap) :=
  match slobAllocSearch cfg h size align node spAlt with
  | none => none
  | some (some b, h) => some (some b, slobAllocFinish h b size zero false)
  | some (none, h) =>
      match pg with
      | none => some (none, h)
      | some pn =>
          match slobAllocInsert (markSlab h pn) (pn * SLOB_UNITS PAGE_SIZE) size align with
          | none => none
          | some (b, h) => some (some b, slobAllocFinish h b size zero true)

/-! ## `slob_free` -/

/-- The critical section of `slob_free` (lines 413-441 and 444-478). The second
component is the page that is now to be handed back to the page allocator. -/
def slobFreeSection (h : Heap) (b size : Nat) : Option (Heap × Option Nat) :=
  let sp := virtToPage b
  let units := SLOB_UNITS size
  if toUnsigned ((h.page sp).units + units) = SLOB_UNITS PAGE_SIZE then
    -- go directly to the page allocator, do not pass slob allocator
    some (if (h.page sp).slobFree then h.clearSlobPageFree sp else h, some sp)
  else if ¬ (h.page sp).slobFree then
    -- this slob page is about to become partially free
    let h := h.setPage sp { h.page sp with units := units, freelist := b }
    let h := { h with mem := setSlob h.mem b units (pageMask (b + SLOB_UNITS PAGE_SIZE)) }
    some (h.setSlobPageFree sp (slobListOf size), none)
  else
    let h := h.setPage sp { h.page sp with units := (h.page sp).units + units }
    match pageFree (h.view sp) b units with
    | none => none
    | some v => some (h.setView sp v, none)

/-- After the lock is dropped: `__ClearPageSlab`, `slob_free_pages`,
`pcount--`. -/
def slobFreeRelease (h : Heap) (sp : Nat) : Heap :=
  { h.setPage sp { h.page sp with slab := false } with pcount := h.pcount - 1 }

/-- `used_m -= size`, before the lock is taken. -/
def debitUsed (h : Heap) (size : Nat) : Heap :=
  { h with usedM := h.usedM - BitVec.ofNat 32 size }

@[simp] theorem debitUsed_mem (h : Heap) (size : Nat) : (debitUsed h size).mem = h.mem := rfl
@[simp] theorem debitUsed_page (h : Heap) (size : Nat) :
    (debitUsed h size).page = h.page := rfl

theorem adds_debitUsed (h : Heap) (size : Nat) : Adds h (debitUsed h size) (-size) 0 0 :=
  ⟨sub_eq_add_neg _ _, (add_zero _).symm, (add_zero _).symm⟩

theorem adds_release (h : Heap) (pn : Nat) : Adds h (slobFreeRelease h pn) 0 (-1) 0 :=
  ⟨(add_zero _).symm, sub_eq_add_neg _ _, (add_zero _).symm⟩

/-- `slob_free` run in one go; `block` is a `void *`. -/
def slobFree (h : Heap) (block size : Nat) : Option Heap :=
  -- `ZERO_OR_NULL_PTR(block)`
  if block ≤ 16 then some h
  -- `BUG_ON(!size)`
  else if size = 0 then none
  else
    match slobFreeSection (debitUsed h size) (block / SLOB_UNIT) size with
    | none => none
    | some (h, none) => some h
    | some (h, some sp) => some (slobFreeRelease h sp)

end OsProjects.Slob
