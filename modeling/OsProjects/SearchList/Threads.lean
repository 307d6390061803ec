import OsProjects.Framework.Machine
import OsProjects.SearchList.Store

/-!
# Searchers, inserters and deleters

Three threads of each kind over the list of `Store`. The size check, which is
made without a lock, every `pthread_mutex_trylock`, every locked section, every
unlock and the `sleep` are one step each. What the environment decides is in the
label: which thread moves, what `rand()` returns and where `malloc` puts a node,
which is an address not in use. `output` is what the program prints.

`next_cases` says what a step can do to the list and to the announcements.
-/

namespace OsProjects.SearchList

open Framework

/-! ## State -/

/-- Printed lines. -/
inductive Line where
  | inserted (v : Nat)       -- "New item inserted to list:"
  | deleted (v : Nat)        -- "Value deleted from list:"
  | empty                    -- "List is empty"
  | searched (vs : List Nat) -- "Searching through the list:"
deriving DecidableEq, Repr

instance thread_neZero : NeZero 3 := ⟨by decide⟩

inductive Tid where
  | insert (i : Fin 3)
  | delete (i : Fin 3)
  | search (i : Fin 3)
deriving DecidableEq, Repr

inductive InsertPc where
  | check    -- `if (linked_list_size() < 25)`
  | lock     -- `pthread_mutex_trylock(&insert_lock)`
  | locked
  | unlock
  | sleep
deriving DecidableEq, Repr

inductive DeletePc where
  | check         -- `if (linked_list_size() > 1)`
  | lockInsert
  | lockSearch
  | locked
  | unlockSearch
  | unlockInsert
  | sleep
deriving DecidableEq, Repr

inductive SearchPc where
  | lock
  | locked
  | unlock
  | sleep
deriving DecidableEq, Repr

structure State where
  store : Store
  insertLock : Option Tid
  searchLock : Option Tid
  inserting : Fin 3 → InsertPc
  deleting : Fin 3 → DeletePc
  prev : Fin 3 → Option Ptr   -- the local variable of `delete`
  searching : Fin 3 → SearchPc
  output : List Line

def State.setInsert (s : State) (i : Fin 3) (x : InsertPc) : State :=
  { s with inserting := Function.update s.inserting i x }

def State.setDelete (s : State) (i : Fin 3) (x : DeletePc) : State :=
  { s with deleting := Function.update s.deleting i x }

def State.setSearch (s : State) (i : Fin 3) (x : SearchPc) : State :=
  { s with searching := Function.update s.searching i x }

/-! ## Steps -/

/-- A step of `insert()`. -/
def stepInsert (s : State) (i : Fin 3) (rand : Nat) (addr : Ptr) : Option State :=
  match s.inserting i with
  | .check =>
      match linkedListSize s.store with
      | none => none
      | some n => some (s.setInsert i (if n < 25 then .lock else .check))
  | .lock =>
      match s.insertLock with
      | none => some { s.setInsert i .locked with insertLock := some (.insert i) }
      | some _ => some (s.setInsert i .check)
  | .locked =>
      match s.store.cells.lookup addr with
      | some _ => none
      | none =>
          match insertSection s.store rand addr with
          | none => none
          | some st => some { s.setInsert i .unlock with
              store := st, output := s.output ++ [.inserted (rand % 10)] }
  | .unlock => some { s.setInsert i .sleep with insertLock := none }
  | .sleep => some (s.setInsert i .check)

/-- A step of `delete()`. -/
def stepDelete (s : State) (i : Fin 3) (rand : Nat) : Option State :=
  match s.deleting i with
  | .check =>
      match linkedListSize s.store with
      | none => none
      | some n => some (s.setDelete i (if n > 1 then .lockInsert else .check))
  | .lockInsert =>
      match s.insertLock with
      | none => some { s.setDelete i .lockSearch with insertLock := some (.delete i) }
      | some _ => some (s.setDelete i .sleep)
  | .lockSearch =>
      match s.searchLock with
      | none => some { s.setDelete i .locked with searchLock := some (.delete i) }
      | some _ => some (s.setDelete i .unlockInsert)
  | .locked =>
      match deleteSection s.store rand (s.prev i) with
      | none => none
      | some r => some { s.setDelete i .unlockSearch with
          store := r.store, prev := Function.update s.prev i r.prev,
          output := s.output ++ if r.found then [.deleted (rand % 10)] else [] }
  | .unlockSearch => some { s.setDelete i .unlockInsert with searchLock := none }
  | .unlockInsert => some { s.setDelete i .sleep with insertLock := none }
  | .sleep => some (s.setDelete i .check)

/-- A step of `search()`. -/
def stepSearch (s : State) (i : Fin 3) : Option State :=
  match s.searching i with
  | .lock =>
      match s.searchLock with
      | none => some { s.setSearch i .locked with searchLock := some (.search i) }
      | some _ => some (s.setSearch i .sleep)
  | .locked =>
      match s.store.head with
      -- `continue`, with the lock held
      | none => some { s.setSearch i .lock with output := s.output ++ [.empty] }
      | some _ =>
          match values s.store with
          | none => none
          | some vs =>
              some { s.setSearch i .unlock with output := s.output ++ [.searched vs] }
  | .unlock => some { s.setSearch i .sleep with searchLock := none }
  | .sleep => some (s.setSearch i .lock)

inductive Label where
  | insert (i : Fin 3) (rand : Nat) (addr : Ptr)
  | delete (i : Fin 3) (rand : Nat)
  | search (i : Fin 3)
deriving DecidableEq, Repr

def next (s : State) : Label → Option State
  | .insert i rand addr => stepInsert s i rand addr
  | .delete i rand => stepDelete s i rand
  | .search i => stepSearch s i

/-- After `main` has built the list and started the threads. -/
def boot (rand : Nat) (addr : Ptr) : State where
  store := ⟨AList.singleton addr ⟨none, rand % 10⟩, some addr⟩
  insertLock := none
  searchLock := none
  inserting := fun _ => .check
  deleting := fun _ => .check
  prev := fun _ => none
  searching := fun _ => .lock
  output := []

def machine : Machine State Label := ⟨fun s => ∃ rand addr, s = boot rand addr, next⟩

/-! ## What a step does to the list -/

/-- The values announced as inserted. -/
def insertedValues (out : List Line) : List Nat :=
  out.filterMap fun
    | .inserted v => some v
    | _ => none

/-- The values announced as deleted. -/
def deletedValues (out : List Line) : List Nat :=
  out.filterMap fun
    | .deleted v => some v
    | _ => none

/-- The step is the locked section of an insert or delete thread. -/
def Label.isSection (s : State) : Label → Prop
  | .insert i _ _ => s.inserting i = .locked
  | .delete i _ => s.deleting i = .locked
  | .search _ => False

inductive Effect (s : State) : Label → State → Prop where
  | insert {i : Fin 3} {rand : Nat} {addr : Ptr} {s' : State} :
      s.inserting i = .locked → s.store.cells.lookup addr = none →
      insertSection s.store rand addr = some s'.store →
      s'.output = s.output ++ [.inserted (rand % 10)] →
      Effect s (.insert i rand addr) s'
  | delete {i : Fin 3} {rand : Nat} {s' : State} {r : Deletion} :
      s.deleting i = .locked → deleteSection s.store rand (s.prev i) = some r →
      s'.store = r.store →
      s'.output = s.output ++ (if r.found then [.deleted (rand % 10)] else []) →
      Effect s (.delete i rand) s'
  | other {a : Label} {s' : State} :
      ¬ a.isSection s → s'.store = s.store →
      insertedValues s'.output = insertedValues s.output →
      deletedValues s'.output = deletedValues s.output → Effect s a s'

theorem stepInsert_effect {s s' : State} {i : Fin 3} {rand : Nat} {addr : Ptr}
    (h : stepInsert s i rand addr = some s') : Effect s (.insert i rand addr) s' := by
  unfold stepInsert at h
  cases hpc : s.inserting i with
  | locked =>
      simp only [hpc] at h
      split at h
      · cases h
      · split at h
        · cases h
        · obtain rfl := Option.some.inj h
          exact .insert hpc ‹_› ‹_› rfl
  | check =>
      simp only [hpc] at h
      split at h
      · cases h
      · obtain rfl := Option.some.inj h
        exact .other (by simp [Label.isSection, hpc]) rfl rfl rfl
  | lock =>
      simp only [hpc] at h
      split at h
      · obtain rfl := Option.some.inj h
        exact .other (by simp [Label.isSection, hpc]) rfl rfl rfl
      · obtain rfl := Option.some.inj h
        exact .other (by simp [Label.isSection, hpc]) rfl rfl rfl
  | unlock | sleep =>
      simp only [hpc] at h
      obtain rfl := Option.some.inj h
      exact .other (by simp [Label.isSection, hpc]) rfl rfl rfl

theorem stepDelete_effect {s s' : State} {i : Fin 3} {rand : Nat}
    (h : stepDelete s i rand = some s') : Effect s (.delete i rand) s' := by
  unfold stepDelete at h
  cases hpc : s.deleting i with
  | locked =>
      simp only [hpc] at h
      split at h
      · cases h
      · obtain rfl := Option.some.inj h
        exact .delete hpc ‹_› rfl rfl
  | check =>
      simp only [hpc] at h
      split at h
      · cases h
      · obtain rfl := Option.some.inj h
        exact .other (by simp [Label.isSection, hpc]) rfl rfl rfl
  | lockInsert | lockSearch =>
      simp only [hpc] at h
      split at h
      · obtain rfl := Option.some.inj h
        exact .other (by simp [Label.isSection, hpc]) rfl rfl rfl
      · obtain rfl := Option.some.inj h
        exact .other (by simp [Label.isSection, hpc]) rfl rfl rfl
  | unlockSearch | unlockInsert | sleep =>
      simp only [hpc] at h
      obtain rfl := Option.some.inj h
      exact .other (by simp [Label.isSection, hpc]) rfl rfl rfl

theorem stepSearch_effect {s s' : State} {i : Fin 3} (h : stepSearch s i = some s') :
    Effect s (.search i) s' := by
  unfold stepSearch at h
  cases hpc : s.searching i with
  | lock =>
      simp only [hpc] at h
      split at h
      · obtain rfl := Option.some.inj h
        exact .other nofun rfl rfl rfl
      · obtain rfl := Option.some.inj h
        exact .other nofun rfl rfl rfl
  | locked =>
      simp only [hpc] at h
      split at h
      · obtain rfl := Option.some.inj h
        exact .other nofun rfl (by simp [insertedValues]) (by simp [deletedValues])
      · split at h
        · cases h
        · obtain rfl := Option.some.inj h
          exact .other nofun rfl (by simp [insertedValues]) (by simp [deletedValues])
  | unlock | sleep =>
      simp only [hpc] at h
      obtain rfl := Option.some.inj h
      exact .other nofun rfl rfl rfl

/-- **Inversion.** -/
theorem next_cases {s s' : State} {a : Label} (h : next s a = some s') : Effect s a s' := by
  cases a with
  | insert i rand addr => exact stepInsert_effect h
  | delete i rand => exact stepDelete_effect h
  | search i => exact stepSearch_effect h

end OsProjects.SearchList
