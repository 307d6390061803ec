import OsProjects.Slob.Tenants

/-!
# Object caches and deferred frees

Lines 97-105 and 583-669 of `slob.c`: the `kmem_cache` interface on top of `slob_alloc`
and the page allocator. A cache made with `SLAB_DESTROY_BY_RCU` has room for a `struct
slob_rcu` behind every object; freeing an object writes its size there and leaves the
rest to a callback, which finds the object again from the address of that footer.

The frontends run side by side on one heap: a state has the heap, the caches, and an
`Item` for each object that was handed out by either and not given back.
-/

namespace OsProjects.Slob

open Framework

/-! ## The code -/

/-- `sizeof(struct slob_rcu)`: two pointers, and the `int` at offset 8. -/
def SLOB_RCU : Nat := 12

/-- The fields of `struct kmem_cache` that are used. A constructor is what it stores: the
byte at an offset in the object at an address. -/
structure Cache where
  objectSize : Nat
  size : Nat
  align : Nat
  rcu : Bool                               -- `SLAB_DESTROY_BY_RCU`
  ctor : Option (Nat → Nat → UInt8)

/-- `__kmem_cache_create`, on a cache whose `size` is its `object_size`. -/
def kmemCacheCreate (objectSize align : Nat) (rcu : Bool) (ctor : Option (Nat → Nat → UInt8)) :
    Cache where
  objectSize := objectSize
  size := if rcu then (objectSize + SLOB_RCU) % 2 ^ 32 else objectSize
  align := align
  rcu := rcu
  ctor := ctor

/-- `c->ctor(b)`, if there is one. -/
def Cache.construct (c : Cache) (m : Mem) (b : Nat) : Mem :=
  match c.ctor with
  | none => m
  | some f => fun x => if b ≤ x ∧ x < b + c.objectSize then f b (x - b) else m x

/-- `slob_alloc_node`; `0` is `NULL`. The pages of a large object are not asked for with
`__GFP_COMP`. -/
def slobAllocNode (cfg : Config) (c : Cache) (k : KHeap) (zero : Bool) (node : Int)
    (spAlt pg : Option Nat) : Option (Nat × KHeap) :=
  if c.size < PAGE_SIZE then
    match slobAlloc cfg k.slob c.size zero c.align node spAlt pg with
    | none => none
    | some (none, h) => some (0, { k with slob := h })
    | some (some b, h) =>
        some (SLOB_UNIT * b,
          { k with slob := { h with mem := c.construct h.mem (SLOB_UNIT * b) } })
  else
    match pg with
    | none => some (0, k)
    | some pn =>
        let k := allocPages k pn (getOrder c.size) false
        some (PAGE_SIZE * pn,
          { k with slob := { k.slob with mem := c.construct k.slob.mem (PAGE_SIZE * pn) } })

/-- What `slob_alloc_node` takes, if it takes anything. -/
def cacheTakes (cfg : Config) (c : Cache) (k : KHeap) (zero : Bool) (node : Int)
    (spAlt pg : Option Nat) : Option Taken :=
  if c.size < PAGE_SIZE then
    match slobAlloc cfg k.slob c.size zero c.align node spAlt pg with
    | some (some b, _) => some (.units ⟨b, c.size⟩)
    | _ => none
  else pg.map fun pn => .pages pn (getOrder c.size)

/-- What `__kmem_cache_free` decides to give back; `size` is an `int`, compared with an
`unsigned long`. -/
def freeTarget (b : Nat) (size : Int) : Handback :=
  if toUnsigned size < PAGE_SIZE then .units b (toUnsigned size)
  else .pages (pageOf b) (getOrder (toUnsigned size))

/-- `slob_free`, or `free_pages`. -/
def giveBack (k : KHeap) : Handback → Option KHeap
  | .nothing => some k
  | .units b size =>
      match slobFree k.slob b size with
      | none => none
      | some h => some { k with slob := h }
  | .pages _ _ => some k

/-- `b + (c->size - sizeof(struct slob_rcu))` -/
def Cache.footer (c : Cache) (b : Nat) : Nat :=
  (b + (c.size + 2 ^ 32 - SLOB_RCU) % 2 ^ 32) % 2 ^ 32

/-- The deferring branch of `kmem_cache_free`: `slob_rcu->size = c->size`, and `call_rcu`
links the callback in at `head`, with whatever `link` that takes. -/
def deferFree (c : Cache) (k : KHeap) (b link : Nat) : KHeap :=
  let head := c.footer b
  let mem := writeLE k.slob.mem (head + 8) 4 c.size
  let mem := writeLE mem head 8 link
  { k with slob := { k.slob with mem := mem } }

/-- What `kmem_rcu_free` gives back, given the footer alone. -/
def rcuTarget (k : KHeap) (head : Nat) : Handback :=
  let size := readSigned k.slob.mem (head + 8) 4
  let b := (head + 2 ^ 32 - (toUnsigned size + 2 ^ 32 - SLOB_RCU) % 2 ^ 32) % 2 ^ 32
  freeTarget b size

/-- `kfree` is these two steps. -/
theorem kfree_eq_giveBack (align : Nat) (k : KHeap) (p : Nat) :
    kfree align k p = giveBack k (kfreeTarget align k p) := rfl

/-! ## The frontends side by side -/

inductive Owner where
  | kmalloc (size : Nat)
  | cache (n : Nat)               -- an object of cache number `n`
  | rcu (n : Nat) (head : Nat)    -- freed; the callback at `head` has not run
deriving DecidableEq, Repr

structure Item where
  ptr : Nat
  took : Taken
  owner : Owner
deriving DecidableEq, Repr

structure FSys where
  k : KHeap
  cache : Nat → Option Cache
  items : List Item
  bug : Bool

def FSys.taken (s : FSys) : List Taken := s.items.map Item.took

/-- The cache of an object, freed or not. -/
def FSys.cacheOf (s : FSys) (i : Item) : Option Cache :=
  match i.owner with
  | .kmalloc _ => none
  | .cache n | .rcu n _ => s.cache n

/-- The bytes that were asked for. -/
def FSys.object (s : FSys) (i : Item) : Ext :=
  match i.owner with
  | .kmalloc size => ⟨i.ptr, size⟩
  | .cache _ | .rcu _ _ => ⟨i.ptr, ((s.cacheOf i).map Cache.objectSize).getD 0⟩

/-- How far the users of an object may write. A freed object of an RCU cache may still have
some, who found it before. -/
def FSys.room (align : Nat) (s : FSys) (i : Item) : Nat :=
  match i.owner with
  | .kmalloc _ => (ksize align s.k i.ptr).getD 0
  | .cache _ | .rcu _ _ => (s.object i).len

def Cache.wantedOrder (c : Cache) : Nat := if c.size < PAGE_SIZE then 0 else getOrder c.size

/-- Caches that `kmem_cache_create` lets through. -/
def CreateOk (objectSize align : Nat) : Prop :=
  0 < objectSize ∧ objectSize ≤ 2 ^ 30 ∧ (align = 0 ∨ ∃ j ≤ 12, align = 2 ^ j)

instance (objectSize align : Nat) : Decidable (CreateOk objectSize align) :=
  inferInstanceAs (Decidable (_ ∧ _ ∧ (_ ∨ ∃ j, j ≤ 12 ∧ _)))

inductive FLabel where
  | kmalloc (size : Nat) (zero : Bool) (node : Int) (pg : Option Nat)
  | kfree (i : Item)
  | create (n objectSize align : Nat) (rcu : Bool) (ctor : Option (Nat → Nat → UInt8))
  | alloc (n : Nat) (zero : Bool) (node : Int) (pg : Option Nat)
  | free (i : Item) (link : Nat)
  | callback (i : Item)
  | write (i : Item) (off : Nat) (byte : UInt8)

def FSys.give (s : FSys) (i : Item) (target : Handback) : FSys :=
  match giveBack s.k target with
  | none => { s with bug := true }
  | some k => { s with k := k, items := s.items.erase i }

/-- One call of either frontend, one RCU callback, or one store into an object. -/
def fnext (cfg : Config) (align : Nat) (s : FSys) : FLabel → Option FSys
  | .kmalloc size zero node pg =>
      if s.bug = false ∧ size < 2 ^ 32 ∧
          ∀ pn ∈ pg, FreshPages s.k.slob s.taken pn (wantedOrder align size) then
        match doKmallocNode cfg align s.k size zero node none pg with
        | none => some { s with bug := true }
        | some (p, k) =>
            match kmallocTakes cfg align s.k size zero node none pg with
            | none => some { s with k := k }
            | some took => some { s with k := k, items := ⟨p, took, .kmalloc size⟩ :: s.items }
      else none
  | .kfree i =>
      match i.owner with
      | .kmalloc _ =>
          if s.bug = false ∧ i ∈ s.items then some (s.give i (kfreeTarget align s.k i.ptr))
          else none
      | _ => none
  | .create n objectSize align rcu ctor =>
      if s.bug = false ∧ (s.cache n).isNone ∧ CreateOk objectSize align then
        some { s with
          cache := Function.update s.cache n (some (kmemCacheCreate objectSize align rcu ctor)) }
      else none
  | .alloc n zero node pg =>
      match s.cache n with
      | none => none
      | some c =>
          if s.bug = false ∧ ∀ pn ∈ pg, FreshPages s.k.slob s.taken pn c.wantedOrder then
            match slobAllocNode cfg c s.k zero node none pg with
            | none => some { s with bug := true }
            | some (p, k) =>
                match cacheTakes cfg c s.k zero node none pg with
                | none => some { s with k := k }
                | some took => some { s with k := k, items := ⟨p, took, .cache n⟩ :: s.items }
          else none
  | .free i link =>
      match i.owner with
      | .cache n =>
          match s.cache n with
          | none => none
          | some c =>
              if s.bug = false ∧ i ∈ s.items then
                if c.rcu then
                  some { s with
                    k := deferFree c s.k i.ptr link
                    items := { i with owner := .rcu n (c.footer i.ptr) } :: s.items.erase i }
                else some (s.give i (freeTarget i.ptr c.size))
              else none
      | _ => none
  | .callback i =>
      match i.owner with
      | .rcu _ head =>
          if s.bug = false ∧ i ∈ s.items then some (s.give i (rcuTarget s.k head)) else none
      | _ => none
  | .write i off byte =>
      if s.bug = false ∧ i ∈ s.items ∧ off < s.room align i then
        let mem := Function.update s.k.slob.mem (i.ptr + off) byte
        some { s with k := { s.k with slob := { s.k.slob with mem := mem } } }
      else none

/-- No object, no cache, nothing held. -/
structure FBooted (s : FSys) : Prop where
  list : ∀ c, s.k.slob.list c = []
  slab : ∀ pn, (s.k.slob.page pn).slab = false
  cache : ∀ n, s.cache n = none
  items : s.items = []
  bug : s.bug = false

def frontends (cfg : Config) (align : Nat) : Machine FSys FLabel := ⟨FBooted, fnext cfg align⟩

end OsProjects.Slob
