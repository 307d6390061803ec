import OsProjects.SearchList.Accounts
import OsProjects.SearchList.Walks

/-!
# Walks and their counterpart in one step

What a state of `Hops` looks like to `Threads`, in which every section and every
`linked_list_size` is one step: the place of each thread (`coarse`), the list, and what is
printed. A walk is told by the nodes it has `passed`. Lines that are printed before the
step of `Threads` is taken are a debt of the thread that holds the lock.
-/

namespace OsProjects.SearchList.Hops

open Framework

/-! ## The counterpart of a state -/

def InsertPc.coarse : InsertPc → SearchList.InsertPc
  | .check | .sizing (some _) _ => .check
  | .sizing none n => if n < 25 then .lock else .check
  | .lock => .lock
  | .locked | .walking _ _ | .link _ _ => .locked
  | .unlock => .unlock
  | .sleep => .sleep

def DeletePc.coarse : DeletePc → SearchList.DeletePc
  | .check | .sizing (some _) _ => .check
  | .sizing none n => if n > 1 then .lockInsert else .check
  | .lockInsert => .lockInsert
  | .lockSearch => .lockSearch
  | .locked | .walking _ _ | .unlink _ => .locked
  | .free _ | .unlockSearch => .unlockSearch
  | .unlockInsert => .unlockInsert
  | .sleep => .sleep

def SearchPc.coarse : SearchPc → SearchList.SearchPc
  | .lock => .lock
  | .locked | .walking (some _) => .locked
  | .walking none | .unlock => .unlock
  | .sleep => .sleep

/-- The nodes a walk has passed when it stands at a pointer. -/
def passed (xs : List (Ptr × Nat)) : Option Ptr → List (Ptr × Nat)
  | none => xs
  | some p => xs.takeWhile fun x => x.1 ≠ p

/-! ### What has been printed -/

def insertedPrints (out : List Print) : List Nat :=
  out.filterMap fun
    | .inserted v => some v
    | _ => none

def deletedPrints (out : List Print) : List Nat :=
  out.filterMap fun
    | .deleted v => some v
    | _ => none

def searchPrints (out : List Print) : List Print :=
  out.filter fun
    | .inserted _ | .deleted _ => false
    | _ => true

/-- A search as it is printed. -/
def render : Line → List Print
  | .inserted _ | .deleted _ => []
  | .empty => [.empty]
  | .searched vs => .searching :: vs.map .value ++ [.newline]

/-- Announced, and not linked in yet. -/
def InsertPc.debt (m : Cells Ptr Nat) : InsertPc → List Nat
  | .walking a _ | .link a _ => (m.lookup a).toList.map Node.val
  | _ => []

/-- Announced, and not unlinked yet. -/
def DeletePc.debt (m : Cells Ptr Nat) : DeletePc → List Nat
  | .unlink d => (m.lookup d).toList.map Node.val
  | _ => []

/-- Printed before the end is reached. -/
def SearchPc.debt (xs : List (Ptr × Nat)) : SearchPc → List Print
  | .walking (some p) => .searching :: (passed xs (some p)).map fun x => .value x.2
  | _ => []

/-- Not printed although the end is reached. -/
def SearchPc.rest : SearchPc → List Print
  | .walking none => [.newline]
  | _ => []

namespace State

variable (s : State)

def insertDebt : List Nat :=
  match s.insertLock with
  | some (.insert i) => (s.inserting i).debt s.store.cells
  | _ => []

def deleteDebt : List Nat :=
  match s.insertLock with
  | some (.delete i) => (s.deleting i).debt s.store.cells
  | _ => []

def searchDebt (xs : List (Ptr × Nat)) : List Print :=
  match s.searchLock with
  | some (.search i) => (s.searching i).debt xs
  | _ => []

def searchRest : List Print :=
  match s.searchLock with
  | some (.search i) => (s.searching i).rest
  | _ => []

end State

/-! ### The relation -/

section Places

variable (m tm : Cells Ptr Nat) (xs : List (Ptr × Nat))

/-- What the walks of `insert` have found out; `tm` is the memory of the counterpart, which
does not have the new node. -/
def InsertAt : InsertPc → Prop
  | .sizing (some p) n => (passed xs (some p)).length = n
  | .walking a _ | .link a _ => tm.lookup a = none ∧ ∃ v < 10, m.lookup a = some ⟨none, v⟩
  | _ => True

/-- What the walks of `delete` have found out. The counterpart has freed the node that is
unlinked. -/
def DeleteAt : DeletePc → Prop
  | .sizing (some p) n => (passed xs (some p)).length = n
  | .walking v d => v < 10 ∧ ∀ y ∈ passed xs d, y.2 ≠ v
  | .unlink d => ∃ v < 10, (∃ nx, m.lookup d = some ⟨nx, v⟩) ∧ ∀ y ∈ passed xs (some d), y.2 ≠ v
  | .free d => tm.lookup d = none
  | _ => True

end Places

/-- `t` is what `s` looks like with atomic sections. -/
structure Follows (s : State) (t : SearchList.State) (xs : List (Ptr × Nat)) : Prop where
  inserting : ∀ i, t.inserting i = (s.inserting i).coarse
  deleting : ∀ i, t.deleting i = (s.deleting i).coarse
  searching : ∀ i, t.searching i = (s.searching i).coarse
  insertLock : t.insertLock = s.insertLock
  searchLock : t.searchLock = s.searchLock
  list : s.store.Holds xs
  list' : t.store.Holds xs
  memory : ∀ p, s.store.cells.lookup p = none → t.store.cells.lookup p = none
  insertAt : ∀ i, InsertAt s.store.cells t.store.cells xs (s.inserting i)
  deleteAt : ∀ i, DeleteAt s.store.cells t.store.cells xs (s.deleting i)
  inserted : insertedPrints s.output = insertedValues t.output ++ s.insertDebt
  deleted : deletedPrints s.output = deletedValues t.output ++ s.deleteDebt
  searched : searchPrints s.output ++ s.searchRest = t.output.flatMap render ++ s.searchDebt xs

/-- The counterpart stays, or takes a step. -/
def Answered (s' : State) (t : SearchList.State) : Prop :=
  (∃ xs, Follows s' t xs) ∨ ∃ b t', SearchList.next t b = some t' ∧ ∃ xs, Follows s' t' xs

/-! ## Walks -/

section Walks

variable {st : Store} {xs ys zs : List (Ptr × Nat)} {p : Option Ptr} {a : Ptr}

theorem passed_split (h : st.Holds (ys ++ zs)) (hzs : Seg st.cells p zs none) :
    passed (ys ++ zs) p = ys := by
  cases zs with
  | nil =>
      obtain rfl : p = none := hzs
      exact List.append_nil ys
  | cons z zs =>
      obtain rfl : p = some z.1 := hzs.1
      have hdrop := Seg.not_mem_drop h
      rw [passed, List.takeWhile_append_of_pos, List.takeWhile_cons_of_neg, List.append_nil]
      · simp
      · intro y hy
        rw [decide_eq_true_eq]
        intro heq
        refine hdrop (List.mem_map.mpr ⟨y, ?_, heq⟩)
        exact List.mem_append_left _ hy

theorem passed_head (h : st.Holds xs) : passed xs st.head = [] :=
  @passed_split st [] xs _ h h

/-- A node further. -/
theorem passed_hop (h : st.Holds xs) (ha : a ∈ xs.map Prod.fst) {node : Node Ptr Nat}
    (hlook : st.cells.lookup a = some node) :
    passed xs node.next = passed xs (some a) ++ [(a, node.val)] := by
  obtain ⟨ys, v, zs, nx, rfl, hlook', hzs⟩ := Seg.split_of_mem h ha
  obtain rfl := Option.some.inj (hlook'.symm.trans hlook)
  have hwhole : Seg st.cells (some a) ((a, v) :: zs) none := ⟨rfl, nx, hlook', hzs⟩
  rw [passed_split h hwhole]
  have h' : st.Holds (ys ++ [(a, v)] ++ zs) := by
    rw [List.append_assoc]
    exact h
  have hsplit := passed_split h' hzs
  rw [List.append_assoc] at hsplit
  exact hsplit

theorem passed_append (ha : a ∈ xs.map Prod.fst) :
    passed (xs ++ zs) (some a) = passed xs (some a) := by
  change (xs ++ zs).takeWhile _ = xs.takeWhile _
  induction xs with
  | nil => cases ha
  | cons x xs ih =>
      by_cases hx : x.1 = a
      · simp [hx]
      · have ha' : a ∈ xs.map Prod.fst := by
          rcases List.mem_cons.mp ha with rfl | ha'
          · exact absurd rfl hx
          · exact ha'
        simp only [List.cons_append]
        rw [List.takeWhile_cons_of_pos (by simpa using hx), ih ha',
          List.takeWhile_cons_of_pos (by simpa using hx)]

end Walks

/-! ## Memory -/

section Memory

variable {st st' : Store} {a p : Ptr}

theorem write_memory {q : Option Ptr} {l : Link} (h : st.write q l = some st') :
    st'.cells.lookup p = none ↔ st.cells.lookup p = none := by
  cases l with
  | head =>
      obtain rfl := Option.some.inj h
      exact Iff.rfl
  | next r =>
      cases hr : st.cells.lookup r with
      | none =>
          simp only [Store.write, hr] at h
          cases h
      | some node =>
          simp only [Store.write, hr] at h
          obtain rfl := Option.some.inj h
          by_cases hpr : p = r
          · subst hpr
            rw [AList.lookup_insert, hr]
            exact iff_of_false (Option.some_ne_none _) (Option.some_ne_none _)
          · rw [AList.lookup_insert_ne hpr]

/-- `insert` allocates one node. -/
theorem insertSection_memory {rand : Nat} (h : insertSection st rand a = some st') (hp : p ≠ a)
    (hfree : st.cells.lookup p = none) : st'.cells.lookup p = none := by
  have hnew : (st.newNode a (rand % 10)).cells.lookup p = none := by
    rw [Store.newNode, AList.lookup_insert_ne hp, hfree]
  rw [insertSection] at h
  split at h
  · obtain rfl := Option.some.inj h
    exact hnew
  · split at h
    · cases h
    · exact (write_memory h).mpr hnew

theorem unlinkNode_memory {prev : Option Ptr} (h : unlinkNode st a prev = some st')
    (hfree : st'.cells.lookup p = none) : st.cells.lookup p = none := by
  rw [unlinkNode] at h
  split at h
  · cases h
  · split at h
    · obtain rfl := Option.some.inj h
      exact hfree
    · split at h
      · cases h
      · exact (write_memory h).mp hfree

end Memory

/-! ## The threads that do not move -/

section Others

variable {m m' tm tm' : Cells Ptr Nat} {xs xs' : List (Ptr × Nat)}

/-- Outside `insert_lock` a thread does not care about memory. -/
theorem InsertAt.outside {pc : InsertPc} (h : InsertAt m tm xs pc) (hout : pc.inside = false)
    (hxs : ∀ p n, pc = .sizing (some p) n → passed xs' (some p) = passed xs (some p)) :
    InsertAt m' tm' xs' pc := by
  cases pc with
  | sizing p n =>
      cases p with
      | none => trivial
      | some p =>
          rw [InsertAt, hxs p n rfl]
          exact h
  | walking a l | link a l => cases hout
  | _ => trivial

theorem DeleteAt.outside {pc : DeletePc} (h : DeleteAt m tm xs pc)
    (hout : pc.insideInsert = false)
    (hxs : ∀ p n, pc = .sizing (some p) n → passed xs' (some p) = passed xs (some p)) :
    DeleteAt m' tm' xs' pc := by
  cases pc with
  | sizing p n =>
      cases p with
      | none => trivial
      | some p =>
          rw [DeleteAt, hxs p n rfl]
          exact h
  | walking v d | unlink d | free d => cases hout
  | _ => trivial

variable {s : State} {t : SearchList.State}

theorem HopsOk.threadOk (hok : HopsOk s) (h : s.store.Holds xs) (u : Tid) :
    ThreadOk s.store.cells xs s u := by
  obtain ⟨-, ys, hys, hall⟩ := hok
  obtain rfl := Seg.unique hys h
  exact hall u

/-- A thread inside `insert_lock` is the only one. -/
theorem HopsOk.insert_outside (hok : HopsOk s) {u : Tid} (hin : s.inInsert u = true) {j : Fin 3}
    (hj : .insert j ≠ u) : (s.inserting j).inside = false :=
  Bool.eq_false_of_not_eq_true fun h => hj (hok.exclusive.1.unique h hin)

theorem HopsOk.delete_outside (hok : HopsOk s) {u : Tid} (hin : s.inInsert u = true) {j : Fin 3}
    (hj : .delete j ≠ u) : (s.deleting j).insideInsert = false :=
  Bool.eq_false_of_not_eq_true fun h => hj (hok.exclusive.1.unique h hin)

/-- The list grows at its end: nobody has passed anything else. -/
theorem HopsOk.passed_grows (hok : HopsOk s) (h : s.store.Holds xs) (zs : List (Ptr × Nat)) :
    (∀ j p n, s.inserting j = .sizing (some p) n →
      passed (xs ++ zs) (some p) = passed xs (some p)) ∧
    (∀ j p n, s.deleting j = .sizing (some p) n →
      passed (xs ++ zs) (some p) = passed xs (some p)) ∧
    s.searchDebt (xs ++ zs) = s.searchDebt xs := by
  refine ⟨fun j p n hj => ?_, fun j p n hj => ?_, ?_⟩
  · have hon := hok.threadOk h (.insert j)
    rw [ThreadOk, hj] at hon
    exact passed_append hon
  · have hon := hok.threadOk h (.delete j)
    rw [ThreadOk, hj] at hon
    exact passed_append hon
  · unfold State.searchDebt
    split
    · rename_i j _
      have hon := hok.threadOk h (.search j)
      rw [ThreadOk] at hon
      cases hpc : s.searching j with
      | walking p =>
          cases p with
          | none => rfl
          | some p =>
              rw [hpc] at hon
              rw [SearchPc.debt, SearchPc.debt, passed_append hon]
      | _ => rfl
    · rfl

end Others

end OsProjects.SearchList.Hops
