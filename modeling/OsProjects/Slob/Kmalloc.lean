import OsProjects.Slob.Calls

/-!
# The `kmalloc` frontend

Lines 485-581 of `slob.c`: `__do_kmalloc_node`, `kfree` and `ksize`. Small
objects come from the SLOB heap with their size in front of them; the others
are whole pages, recognised by `PageSlab` being clear, with the order kept by
the page allocator.

`align` is `max(ARCH_KMALLOC_MINALIGN, ARCH_SLAB_MINALIGN)`, a constant of the
architecture. `size_t` and pointers have 32 bits, so that sums and differences
of sizes wrap.
-/

namespace OsProjects.Slob

open Framework

/-! ## The code -/

/-- The heap, and what the page allocator remembers about compound pages. -/
structure KHeap where
  slob : Heap
  compound : Nat → Nat   -- `compound_order`

def ZERO_SIZE_PTR : Nat := 16

/-- `get_order`: the least order whose pages hold `size` bytes. -/
def getOrder (size : Nat) : Nat := Nat.clog 2 ((size + PAGE_SIZE - 1) / PAGE_SIZE)

theorem le_getOrder (size : Nat) : size ≤ PAGE_SIZE * 2 ^ getOrder size := by
  have h := Nat.le_pow_clog Nat.one_lt_two ((size + PAGE_SIZE - 1) / PAGE_SIZE)
  unfold getOrder PAGE_SIZE at *
  omega

/-- The page allocator hands out `2 ^ order` pages from `pn` on. It remembers
the order under `__GFP_COMP`; any other page counts as a single one. -/
def allocPages (k : KHeap) (pn order : Nat) (comp : Bool) : KHeap :=
  { k with compound := Function.update k.compound pn (if comp then order else 0) }

/-- The test for the SLOB path: `size < PAGE_SIZE - align`. -/
def isSmall (align size : Nat) : Bool :=
  size < (PAGE_SIZE + 2 ^ 32 - align) % 2 ^ 32

/-- `__do_kmalloc_node`. `pg` is what the page allocator answers if it is
asked; `0` is `NULL`. -/
def doKmallocNode (cfg : Config) (align : Nat) (k : KHeap) (size : Nat) (zero : Bool)
    (node : Int) (spAlt pg : Option Nat) : Option (Nat × KHeap) :=
  if isSmall align size then
    if size = 0 then some (ZERO_SIZE_PTR, k)
    else
      match slobAlloc cfg k.slob ((size + align) % 2 ^ 32) zero align node spAlt pg with
      | none => none
      | some (none, h) => some (0, { k with slob := h })
      | some (some m, h) =>
          -- `*m = size`
          let h := { h with mem := writeLE h.mem (SLOB_UNIT * m) 4 size }
          some (SLOB_UNIT * m + align, { k with slob := h })
  else
    let order := getOrder size
    match pg with
    | none => some (0, k)
    | some pn => some (PAGE_SIZE * pn, allocPages k pn order (order ≠ 0))

/-- What `kfree` decides to give back. -/
inductive Handback where
  | nothing
  | units (block size : Nat)   -- `slob_free`
  | pages (pn order : Nat)     -- `__free_pages`
deriving DecidableEq, Repr

/-- `virt_to_page` of a `void *`. -/
def pageOf (p : Nat) : Nat := p / PAGE_SIZE

def kfreeTarget (align : Nat) (k : KHeap) (block : Nat) : Handback :=
  if block ≤ ZERO_SIZE_PTR then .nothing
  else if (k.slob.page (pageOf block)).slab then
    let m := block - align
    .units m ((readLE k.slob.mem m 4 + align) % 2 ^ 32)
  else .pages (pageOf block) (k.compound (pageOf block))

def kfree (align : Nat) (k : KHeap) (block : Nat) : Option KHeap :=
  match kfreeTarget align k block with
  | .nothing => some k
  | .units m size =>
      match slobFree k.slob m size with
      | none => none
      | some h => some { k with slob := h }
  | .pages _ _ => some k

/-- `ksize`; `none` is `BUG_ON(!block)`. -/
def ksize (align : Nat) (k : KHeap) (block : Nat) : Option Nat :=
  if block = 0 then none
  else if block = ZERO_SIZE_PTR then some 0
  else if (k.slob.page (pageOf block)).slab then
    some (SLOB_UNITS (readLE k.slob.mem (block - align) 4) * SLOB_UNIT % 2 ^ 32)
  else some (PAGE_SIZE * 2 ^ k.compound (pageOf block) % 2 ^ 32)

/-! ## Runs of calls -/

/-- What a successful call took. -/
inductive Taken where
  | units (b : Block)
  | pages (pn order : Nat)
deriving DecidableEq, Repr

/-- Giving exactly that back. -/
def Taken.handback : Taken → Handback
  | .units b => .units (SLOB_UNIT * b.start) b.size
  | .pages pn order => .pages pn order

/-- The bytes that were taken. -/
def Taken.area : Taken → Ext
  | .units b => ⟨SLOB_UNIT * b.start, SLOB_UNIT * SLOB_UNITS b.size⟩
  | .pages pn order => ⟨PAGE_SIZE * pn, PAGE_SIZE * 2 ^ order⟩

/-- What `__do_kmalloc_node` takes, if it takes anything: the block that its
`slob_alloc` returns, or the pages of its order. -/
def kmallocTakes (cfg : Config) (align : Nat) (k : KHeap) (size : Nat) (zero : Bool)
    (node : Int) (spAlt pg : Option Nat) : Option Taken :=
  if isSmall align size then
    if size = 0 then none
    else
      match slobAlloc cfg k.slob ((size + align) % 2 ^ 32) zero align node spAlt pg with
      | some (some m, _) => some (.units ⟨m, (size + align) % 2 ^ 32⟩)
      | _ => none
  else pg.map fun pn => .pages pn (getOrder size)

/-- A live object: the pointer returned, the size asked for, what was taken
for it. -/
structure Obj where
  ptr : Nat
  size : Nat
  took : Taken
deriving DecidableEq, Repr

structure KSys where
  k : KHeap
  objs : List Obj
  bug : Bool

/-- The order of the pages a call may ask for. -/
def wantedOrder (align size : Nat) : Nat := if isSmall align size then 0 else getOrder size

/-- The page allocator may hand out these pages: they lie in the 32-bit address
space past page 0, none of them is a slob page, and no object is made of
them. -/
def KSys.Fresh (s : KSys) (pn order : Nat) : Prop :=
  0 < pn ∧ pn + 2 ^ order ≤ 2 ^ 20 ∧
    (∀ i < 2 ^ order, (s.k.slob.page (pn + i)).slab = false) ∧
    ∀ o ∈ s.objs, o.took.area.Apart ⟨PAGE_SIZE * pn, PAGE_SIZE * 2 ^ order⟩

instance (e f : Ext) : Decidable (e.Apart f) := inferInstanceAs (Decidable (_ ∨ _))

instance (s : KSys) (pn order : Nat) : Decidable (s.Fresh pn order) :=
  inferInstanceAs (Decidable (_ ∧ _ ∧ (∀ i, i < 2 ^ order → _) ∧ _))

inductive KLabel where
  | kmalloc (size : Nat) (zero : Bool) (node : Int) (pg : Option Nat)
  | kfree (p : Nat)
  | write (o : Obj) (off : Nat) (byte : UInt8)

/-- One call, or one store by a caller into memory `ksize` grants it. -/
def knext (cfg : Config) (align : Nat) (s : KSys) : KLabel → Option KSys
  | .kmalloc size zero node pg =>
      if s.bug = false ∧ size < 2 ^ 32 ∧
          ∀ pn ∈ pg, s.Fresh pn (wantedOrder align size) then
        match doKmallocNode cfg align s.k size zero node none pg with
        | none => some { s with bug := true }
        | some (p, k) =>
            match kmallocTakes cfg align s.k size zero node none pg with
            | none => some { s with k := k }
            | some took => some { s with k := k, objs := ⟨p, size, took⟩ :: s.objs }
      else none
  | .kfree p =>
      if s.bug = false ∧ (p ≤ ZERO_SIZE_PTR ∨ ∃ o ∈ s.objs, o.ptr = p) then
        match kfree align s.k p with
        | none => some { s with bug := true }
        | some k => some { s with k := k, objs := s.objs.filter fun o => o.ptr ≠ p }
      else none
  | .write o off byte =>
      if s.bug = false ∧ o ∈ s.objs ∧ off < (ksize align s.k o.ptr).getD 0 then
        let mem := Function.update s.k.slob.mem (o.ptr + off) byte
        some { s with k := { s.k with slob := { s.k.slob with mem := mem } } }
      else none

/-- No object, nothing held, nothing listed. -/
structure KBooted (s : KSys) : Prop where
  list : ∀ c, s.k.slob.list c = []
  slab : ∀ pn, (s.k.slob.page pn).slab = false
  objs : s.objs = []
  bug : s.bug = false

def kmachine (cfg : Config) (align : Nat) : Machine KSys KLabel := ⟨KBooted, knext cfg align⟩

end OsProjects.Slob
