import OsProjects.Framework.Mutex
import OsProjects.SearchList.Threads

/-!
# The threads, one pointer at a time

The threads of `Threads` with their walks taken apart: every pointer a walk
follows is one step, in `linked_list_size`, which is called without a lock, and
in the three locked sections. Unlinking a node and freeing it are two further
steps. A step that would use a freed node is `none`; `State.reads` says which
nodes the next step of a thread uses.

The local variables of a walk are arguments of its program point.
-/

namespace OsProjects.SearchList.Hops

open Framework

/-! ## State -/

/-- What is printed, in pieces. -/
inductive Print where
  | inserted (v : Nat)
  | deleted (v : Nat)
  | empty
  | searching
  | value (v : Nat)
  | newline
deriving DecidableEq, Repr

inductive InsertPc where
  | check
  | sizing (size : Option Ptr) (i : Nat)     -- in `linked_list_size`
  | lock
  | locked
  | walking (insertList : Ptr) (last : Link) -- `while (*end != NULL)`
  | link (insertList : Ptr) (last : Link)    -- `*end = insert_list`
  | unlock
  | sleep
deriving DecidableEq, Repr

inductive DeletePc where
  | check
  | sizing (size : Option Ptr) (i : Nat)
  | lockInsert
  | lockSearch
  | locked
  | walking (deleteNode : Nat) (deleteList : Option Ptr)
  | unlink (deleteList : Ptr)
  | free (deleteList : Ptr)
  | unlockSearch
  | unlockInsert
  | sleep
deriving DecidableEq, Repr

inductive SearchPc where
  | lock
  | locked
  | walking (searchList : Option Ptr)
  | unlock
  | sleep
deriving DecidableEq, Repr

structure State where
  store : Store
  insertLock : Option Tid
  searchLock : Option Tid
  inserting : Fin 3 → InsertPc
  deleting : Fin 3 → DeletePc
  prev : Fin 3 → Option Ptr
  searching : Fin 3 → SearchPc
  output : List Print

def State.setInsert (s : State) (i : Fin 3) (x : InsertPc) : State :=
  { s with inserting := Function.update s.inserting i x }

def State.setDelete (s : State) (i : Fin 3) (x : DeletePc) : State :=
  { s with deleting := Function.update s.deleting i x }

def State.setSearch (s : State) (i : Fin 3) (x : SearchPc) : State :=
  { s with searching := Function.update s.searching i x }

/-! ## Steps -/

/-- A step of `insert()`. -/
def stepInsert (s : State) (i : Fin 3) (rand : Nat) (addr : Ptr) : Option State :=
  match s.inserting i with
  | .check => some (s.setInsert i (.sizing s.store.head 0))
  | .sizing none n => some (s.setInsert i (if n < 25 then .lock else .check))
  | .sizing (some p) n =>
      match s.store.cells.lookup p with
      | none => none
      | some node => some (s.setInsert i (.sizing node.next (n + 1)))
  | .lock =>
      match s.insertLock with
      | none => some { s.setInsert i .locked with insertLock := some (.insert i) }
      | some _ => some (s.setInsert i .check)
  | .locked =>
      match s.store.cells.lookup addr with
      | some _ => none
      | none =>
          -- `head == insert_list;` does nothing
          let pc := match s.store.head with
            | none => .unlock
            | some _ => .walking addr .head
          some { s.setInsert i pc with
            store := s.store.newNode addr (rand % 10)
            output := s.output ++ [.inserted (rand % 10)] }
  | .walking a l =>
      match s.store.read l with
      | none => none
      | some none => some (s.setInsert i (.link a l))
      | some (some p) => some (s.setInsert i (.walking a (.next p)))
  | .link a l =>
      match s.store.write (some a) l with
      | none => none
      | some st => some { s.setInsert i .unlock with store := st }
  | .unlock => some { s.setInsert i .sleep with insertLock := none }
  | .sleep => some (s.setInsert i .check)

/-- `head = delete_list->next;` or `prev->next = delete_list->next;` -/
def unlinkNode (st : Store) (d : Ptr) (prev : Option Ptr) : Option Store :=
  match st.cells.lookup d with
  | none => none
  | some node =>
      if st.head = some d then some { st with head := node.next }
      else
        match prev with
        | none => none
        | some q => st.write node.next (.next q)

/-- A step of `delete()`. -/
def stepDelete (s : State) (i : Fin 3) (rand : Nat) : Option State :=
  match s.deleting i with
  | .check => some (s.setDelete i (.sizing s.store.head 0))
  | .sizing none n => some (s.setDelete i (if n > 1 then .lockInsert else .check))
  | .sizing (some p) n =>
      match s.store.cells.lookup p with
      | none => none
      | some node => some (s.setDelete i (.sizing node.next (n + 1)))
  | .lockInsert =>
      match s.insertLock with
      | none => some { s.setDelete i .lockSearch with insertLock := some (.delete i) }
      | some _ => some (s.setDelete i .sleep)
  | .lockSearch =>
      match s.searchLock with
      | none => some { s.setDelete i .locked with searchLock := some (.delete i) }
      | some _ => some (s.setDelete i .unlockInsert)
  | .locked => some (s.setDelete i (.walking (rand % 10) s.store.head))
  | .walking _ none => some (s.setDelete i .unlockSearch)
  | .walking v (some d) =>
      match s.store.cells.lookup d with
      | none => none
      | some node =>
          if node.val = v then
            some { s.setDelete i (.unlink d) with output := s.output ++ [.deleted v] }
          else
            some { s.setDelete i (.walking v node.next) with
              prev := Function.update s.prev i (some d) }
  | .unlink d =>
      match unlinkNode s.store d (s.prev i) with
      | none => none
      | some st => some { s.setDelete i (.free d) with store := st }
  | .free d =>
      match s.store.cells.lookup d with
      | none => none
      | some _ => some { s.setDelete i .unlockSearch with
          store := ⟨s.store.cells.erase d, s.store.head⟩ }
  | .unlockSearch => some { s.setDelete i .unlockInsert with searchLock := none }
  | .unlockInsert => some { s.setDelete i .sleep with insertLock := none }
  | .sleep => some (s.setDelete i .check)

/-- A step of `search()`. -/
def stepSearch (s : State) (i : Fin 3) : Option State :=
  match s.searching i with
  | .lock =>
      match s.searchLock with
      | none => some { s.setSearch i .locked with searchLock := some (.search i) }
      | some _ => some (s.setSearch i .sleep)
  | .locked =>
      match s.store.head with
      -- `continue`, with the lock held
      | none => some { s.setSearch i .lock with output := s.output ++ [.empty] }
      | some p => some { s.setSearch i (.walking (some p)) with
          output := s.output ++ [.searching] }
  | .walking none => some { s.setSearch i .unlock with output := s.output ++ [.newline] }
  | .walking (some p) =>
      match s.store.cells.lookup p with
      | none => none
      | some node => some { s.setSearch i (.walking node.next) with
          output := s.output ++ [.value node.val] }
  | .unlock => some { s.setSearch i .sleep with searchLock := none }
  | .sleep => some (s.setSearch i .lock)

def next (s : State) : Label → Option State
  | .insert i rand addr => stepInsert s i rand addr
  | .delete i rand => stepDelete s i rand
  | .search i => stepSearch s i

/-- After `main` has built the list and started the threads. -/
def boot (rand : Nat) (addr : Ptr) : State where
  store := ⟨AList.singleton addr ⟨none, rand % 10⟩, some addr⟩
  insertLock := none
  searchLock := none
  inserting := fun _ => .check
  deleting := fun _ => .check
  prev := fun _ => none
  searching := fun _ => .lock
  output := []

def machine : Machine State Label := ⟨fun s => ∃ rand addr, s = boot rand addr, next⟩

/-! ## What a step can do -/

section Inversion

variable {s s' : State} {i : Fin 3} {rand : Nat} {addr : Ptr}

/-- A step of `insert()`, with what it needs. -/
inductive InsertOf (s : State) (i : Fin 3) (rand : Nat) (addr : Ptr) : State → Prop where
  | check : s.inserting i = .check →
      InsertOf s i rand addr (s.setInsert i (.sizing s.store.head 0))
  | hop {p : Ptr} {n : Nat} {node : Node Ptr Nat} : s.inserting i = .sizing (some p) n →
      s.store.cells.lookup p = some node →
      InsertOf s i rand addr (s.setInsert i (.sizing node.next (n + 1)))
  | sized {n : Nat} : s.inserting i = .sizing none n →
      InsertOf s i rand addr (s.setInsert i (if n < 25 then .lock else .check))
  | take : s.inserting i = .lock → s.insertLock = none →
      InsertOf s i rand addr { s.setInsert i .locked with insertLock := some (.insert i) }
  | refused : s.inserting i = .lock → InsertOf s i rand addr (s.setInsert i .check)
  | newNode {x : InsertPc} : s.inserting i = .locked → s.store.cells.lookup addr = none →
      (s.store.head = none ∧ x = .unlock ∨ s.store.head ≠ none ∧ x = .walking addr .head) →
      InsertOf s i rand addr { s.setInsert i x with
        store := s.store.newNode addr (rand % 10)
        output := s.output ++ [.inserted (rand % 10)] }
  | walk {a p : Ptr} {l : Link} : s.inserting i = .walking a l →
      s.store.read l = some (some p) →
      InsertOf s i rand addr (s.setInsert i (.walking a (.next p)))
  | last {a : Ptr} {l : Link} : s.inserting i = .walking a l → s.store.read l = some none →
      InsertOf s i rand addr (s.setInsert i (.link a l))
  | link {a : Ptr} {l : Link} {st : Store} : s.inserting i = .link a l →
      s.store.write (some a) l = some st →
      InsertOf s i rand addr { s.setInsert i .unlock with store := st }
  | unlock : s.inserting i = .unlock →
      InsertOf s i rand addr { s.setInsert i .sleep with insertLock := none }
  | sleep : s.inserting i = .sleep → InsertOf s i rand addr (s.setInsert i .check)

theorem stepInsert_cases (h : stepInsert s i rand addr = some s') :
    InsertOf s i rand addr s' := by
  unfold stepInsert at h
  cases hpc : s.inserting i with
  | check =>
      simp only [hpc] at h
      cases h
      exact .check hpc
  | sizing size n =>
      cases size with
      | none =>
          simp only [hpc] at h
          cases h
          exact .sized hpc
      | some p =>
          simp only [hpc] at h
          split at h
          · cases h
          · rename_i node hlook
            cases h
            exact .hop hpc hlook
  | lock =>
      simp only [hpc] at h
      split at h
      · rename_i hlock
        cases h
        exact .take hpc hlock
      · cases h
        exact .refused hpc
  | locked =>
      simp only [hpc] at h
      split at h
      · cases h
      · rename_i hfresh
        cases h
        cases hhead : s.store.head with
        | none => exact .newNode hpc hfresh (.inl ⟨hhead, rfl⟩)
        | some p =>
            have hne : s.store.head ≠ none := by
              rw [hhead]
              exact Option.some_ne_none p
            exact .newNode hpc hfresh (.inr ⟨hne, rfl⟩)
  | walking a l =>
      simp only [hpc] at h
      split at h
      · cases h
      · rename_i hread
        cases h
        exact .last hpc hread
      · rename_i p hread
        cases h
        exact .walk hpc hread
  | link a l =>
      simp only [hpc] at h
      split at h
      · cases h
      · rename_i st hst
        cases h
        exact .link hpc hst
  | unlock =>
      simp only [hpc] at h
      cases h
      exact .unlock hpc
  | sleep =>
      simp only [hpc] at h
      cases h
      exact .sleep hpc

/-- A step of `delete()`. -/
inductive DeleteOf (s : State) (i : Fin 3) (rand : Nat) : State → Prop where
  | check : s.deleting i = .check →
      DeleteOf s i rand (s.setDelete i (.sizing s.store.head 0))
  | hop {p : Ptr} {n : Nat} {node : Node Ptr Nat} : s.deleting i = .sizing (some p) n →
      s.store.cells.lookup p = some node →
      DeleteOf s i rand (s.setDelete i (.sizing node.next (n + 1)))
  | sized {n : Nat} : s.deleting i = .sizing none n →
      DeleteOf s i rand (s.setDelete i (if n > 1 then .lockInsert else .check))
  | takeInsert : s.deleting i = .lockInsert → s.insertLock = none →
      DeleteOf s i rand { s.setDelete i .lockSearch with insertLock := some (.delete i) }
  | refusedInsert : s.deleting i = .lockInsert → DeleteOf s i rand (s.setDelete i .sleep)
  | takeSearch : s.deleting i = .lockSearch → s.searchLock = none →
      DeleteOf s i rand { s.setDelete i .locked with searchLock := some (.delete i) }
  | refusedSearch : s.deleting i = .lockSearch → DeleteOf s i rand (s.setDelete i .unlockInsert)
  | draw : s.deleting i = .locked →
      DeleteOf s i rand (s.setDelete i (.walking (rand % 10) s.store.head))
  | notFound {v : Nat} : s.deleting i = .walking v none →
      DeleteOf s i rand (s.setDelete i .unlockSearch)
  | found {v : Nat} {d : Ptr} {node : Node Ptr Nat} : s.deleting i = .walking v (some d) →
      s.store.cells.lookup d = some node → node.val = v →
      DeleteOf s i rand { s.setDelete i (.unlink d) with output := s.output ++ [.deleted v] }
  | walk {v : Nat} {d : Ptr} {node : Node Ptr Nat} : s.deleting i = .walking v (some d) →
      s.store.cells.lookup d = some node → node.val ≠ v →
      DeleteOf s i rand { s.setDelete i (.walking v node.next) with
        prev := Function.update s.prev i (some d) }
  | unlink {d : Ptr} {st : Store} : s.deleting i = .unlink d →
      unlinkNode s.store d (s.prev i) = some st →
      DeleteOf s i rand { s.setDelete i (.free d) with store := st }
  | free {d : Ptr} : s.deleting i = .free d → (s.store.cells.lookup d).isSome = true →
      DeleteOf s i rand { s.setDelete i .unlockSearch with
        store := ⟨s.store.cells.erase d, s.store.head⟩ }
  | unlockSearch : s.deleting i = .unlockSearch →
      DeleteOf s i rand { s.setDelete i .unlockInsert with searchLock := none }
  | unlockInsert : s.deleting i = .unlockInsert →
      DeleteOf s i rand { s.setDelete i .sleep with insertLock := none }
  | sleep : s.deleting i = .sleep → DeleteOf s i rand (s.setDelete i .check)

theorem stepDelete_cases (h : stepDelete s i rand = some s') : DeleteOf s i rand s' := by
  unfold stepDelete at h
  cases hpc : s.deleting i with
  | check =>
      simp only [hpc] at h
      cases h
      exact .check hpc
  | sizing size n =>
      cases size with
      | none =>
          simp only [hpc] at h
          cases h
          exact .sized hpc
      | some p =>
          simp only [hpc] at h
          split at h
          · cases h
          · rename_i node hlook
            cases h
            exact .hop hpc hlook
  | lockInsert =>
      simp only [hpc] at h
      split at h
      · rename_i hlock
        cases h
        exact .takeInsert hpc hlock
      · cases h
        exact .refusedInsert hpc
  | lockSearch =>
      simp only [hpc] at h
      split at h
      · rename_i hlock
        cases h
        exact .takeSearch hpc hlock
      · cases h
        exact .refusedSearch hpc
  | locked =>
      simp only [hpc] at h
      cases h
      exact .draw hpc
  | walking v d =>
      cases d with
      | none =>
          simp only [hpc] at h
          cases h
          exact .notFound hpc
      | some d =>
          simp only [hpc] at h
          split at h
          · cases h
          · rename_i node hlook
            split at h
            · rename_i hval
              cases h
              exact .found hpc hlook hval
            · rename_i hval
              cases h
              exact .walk hpc hlook hval
  | unlink d =>
      simp only [hpc] at h
      split at h
      · cases h
      · rename_i st hst
        cases h
        exact .unlink hpc hst
  | free d =>
      simp only [hpc] at h
      split at h
      · cases h
      · rename_i hlook
        cases h
        exact .free hpc (by rw [hlook]; rfl)
  | unlockSearch =>
      simp only [hpc] at h
      cases h
      exact .unlockSearch hpc
  | unlockInsert =>
      simp only [hpc] at h
      cases h
      exact .unlockInsert hpc
  | sleep =>
      simp only [hpc] at h
      cases h
      exact .sleep hpc

/-- A step of `search()`. -/
inductive SearchOf (s : State) (i : Fin 3) : State → Prop where
  | take : s.searching i = .lock → s.searchLock = none →
      SearchOf s i { s.setSearch i .locked with searchLock := some (.search i) }
  | refused : s.searching i = .lock → SearchOf s i (s.setSearch i .sleep)
  | empty : s.searching i = .locked → s.store.head = none →
      SearchOf s i { s.setSearch i .lock with output := s.output ++ [.empty] }
  | first {p : Ptr} : s.searching i = .locked → s.store.head = some p →
      SearchOf s i { s.setSearch i (.walking (some p)) with output := s.output ++ [.searching] }
  | walk {p : Ptr} {node : Node Ptr Nat} : s.searching i = .walking (some p) →
      s.store.cells.lookup p = some node →
      SearchOf s i { s.setSearch i (.walking node.next) with
        output := s.output ++ [.value node.val] }
  | last : s.searching i = .walking none →
      SearchOf s i { s.setSearch i .unlock with output := s.output ++ [.newline] }
  | unlock : s.searching i = .unlock →
      SearchOf s i { s.setSearch i .sleep with searchLock := none }
  | sleep : s.searching i = .sleep → SearchOf s i (s.setSearch i .lock)

theorem stepSearch_cases (h : stepSearch s i = some s') : SearchOf s i s' := by
  unfold stepSearch at h
  cases hpc : s.searching i with
  | lock =>
      simp only [hpc] at h
      split at h
      · rename_i hlock
        cases h
        exact .take hpc hlock
      · cases h
        exact .refused hpc
  | locked =>
      simp only [hpc] at h
      split at h
      · rename_i hhead
        cases h
        exact .empty hpc hhead
      · rename_i p hhead
        cases h
        exact .first hpc hhead
  | walking p =>
      cases p with
      | none =>
          simp only [hpc] at h
          cases h
          exact .last hpc
      | some p =>
          simp only [hpc] at h
          split at h
          · cases h
          · rename_i node hlook
            cases h
            exact .walk hpc hlook
  | unlock =>
      simp only [hpc] at h
      cases h
      exact .unlock hpc
  | sleep =>
      simp only [hpc] at h
      cases h
      exact .sleep hpc

end Inversion

/-! ## Walks -/

/-- `t` is in the middle of the walk of `linked_list_size`. -/
def State.sizing (s : State) : Tid → Bool
  | .insert i =>
      match s.inserting i with
      | .sizing (some _) _ => true
      | _ => false
  | .delete i =>
      match s.deleting i with
      | .sizing (some _) _ => true
      | _ => false
  | .search _ => false

/-- `t` is in the middle of the walk of its own section. -/
def State.walking (s : State) : Tid → Bool
  | .insert i =>
      match s.inserting i with
      | .walking _ _ | .link _ _ => true
      | _ => false
  | .delete i =>
      match s.deleting i with
      | .walking _ (some _) | .unlink _ | .free _ => true
      | _ => false
  | .search i =>
      match s.searching i with
      | .walking (some _) => true
      | _ => false

/-- The node a link is a field of. -/
def linkNode : Link → List Ptr
  | .head => []
  | .next p => [p]

/-- The nodes the next step of `t` uses through the pointers of its walk. -/
def State.reads (s : State) : Tid → List Ptr
  | .insert i =>
      match s.inserting i with
      | .sizing size _ => size.toList
      | .walking _ l | .link _ l => linkNode l
      | _ => []
  | .delete i =>
      match s.deleting i with
      | .sizing size _ => size.toList
      | .walking _ d => d.toList
      | .unlink d => if s.store.head = some d then [d] else d :: (s.prev i).toList
      | .free d => [d]
      | _ => []
  | .search i =>
      match s.searching i with
      | .walking p => p.toList
      | _ => []

/-- The step unlinks or frees a node. -/
def removes (s : State) (i : Fin 3) : Bool :=
  match s.deleting i with
  | .unlink _ | .free _ => true
  | _ => false

end OsProjects.SearchList.Hops
