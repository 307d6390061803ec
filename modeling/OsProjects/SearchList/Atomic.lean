import OsProjects.Framework.Simulation
import OsProjects.SearchList.Coarse

/-!
# The sections are atomic

`Threads` runs a locked section in one step, and so a `linked_list_size`; `Hops` takes a
step for every pointer. As long as no node is removed under a `linked_list_size`, every
state of `Hops` has a counterpart that `Threads` reaches (`hops_refine_threads`). The one
step of `Threads` is taken

- for `linked_list_size` and for `search` when the end of the list is read, which is before
  the caller goes on: a node may be linked in between;
- for `insert` when the new node is linked in, for `delete` when the node is unlinked, or
  when there is none.

The announcements of `insert` and `delete` are printed earlier than that, so that the
printed lines keep their order only among the insertions, among the deletions and among
the searches. What is printed ahead is `insertDebt`, `deleteDebt` and `searchDebt`.
-/

namespace OsProjects.SearchList.Hops

open Framework

/-! ## Steps of `insert` -/

section Insert

variable {s s' : State} {t : SearchList.State} {xs : List (Ptr × Nat)} {i : Fin 3} {x : InsertPc}

theorem update_coarse {α β : Type} {f : Fin 3 → α} {g : Fin 3 → β} {c : α → β}
    (h : ∀ j, g j = c (f j)) (i : Fin 3) (x : α) (j : Fin 3) :
    Function.update g i (c x) j = c (Function.update f i x j) := by
  rw [funext h]
  exact (Function.apply_update (fun _ => c) f i x j).symm

/-- The thread goes to `x`, and takes or gives the lock. -/
theorem Follows.setInsert (h : Follows s t xs) (lock : Option Tid) {lock' : Option Tid}
    (hlock : lock' = lock) (hat : InsertAt s.store.cells t.store.cells xs x)
    (hins : ({ s.setInsert i x with insertLock := lock } : State).insertDebt = s.insertDebt)
    (hdel : ({ s.setInsert i x with insertLock := lock } : State).deleteDebt = s.deleteDebt) :
    Follows { s.setInsert i x with insertLock := lock }
      { t.setInsert i x.coarse with insertLock := lock' } xs where
  inserting := update_coarse h.inserting i x
  deleting := h.deleting
  searching := h.searching
  insertLock := hlock
  searchLock := h.searchLock
  list := h.list
  list' := h.list'
  memory := h.memory
  insertAt := Function.forall_update_iff s.inserting
    (fun _ => InsertAt s.store.cells t.store.cells xs) |>.mpr ⟨hat, fun j _ => h.insertAt j⟩
  deleteAt := h.deleteAt
  inserted := by
    rw [hins]
    exact h.inserted
  deleted := by
    rw [hdel]
    exact h.deleted
  searched := h.searched

theorem insertDebt_setInsert
    (hdebt : x.debt s.store.cells = (s.inserting i).debt s.store.cells) :
    (s.setInsert i x).insertDebt = s.insertDebt := by
  unfold State.insertDebt State.setInsert
  dsimp only
  split
  · rename_i j _
    by_cases hj : j = i
    · subst hj
      rw [Function.update_self, hdebt]
    · rw [Function.update_of_ne hj]
  · rfl

theorem Follows.moveInsert (h : Follows s t xs) (hat : InsertAt s.store.cells t.store.cells xs x)
    (hdebt : x.debt s.store.cells = (s.inserting i).debt s.store.cells) :
    Follows (s.setInsert i x) (t.setInsert i x.coarse) xs :=
  h.setInsert s.insertLock h.insertLock hat (insertDebt_setInsert hdebt) rfl

/-- The counterpart does not notice. -/
theorem Follows.stayInsert (h : Follows s t xs) (hc : x.coarse = (s.inserting i).coarse)
    (hat : InsertAt s.store.cells t.store.cells xs x)
    (hdebt : x.debt s.store.cells = (s.inserting i).debt s.store.cells) :
    Follows (s.setInsert i x) t xs := by
  have hmove := h.moveInsert hat hdebt
  rw [hc, ← h.inserting i, SearchList.State.setInsert, Function.update_eq_self] at hmove
  exact hmove

/-- `linked_list_size` has counted the nodes before `q`. -/
theorem Follows.insertSizes (h : Follows s t xs) {q : Option Ptr} {n : Nat}
    (hc : (s.inserting i).coarse = .check) (hdebt : (s.inserting i).debt s.store.cells = [])
    (hq : (passed xs q).length = n) : Answered (s.setInsert i (.sizing q n)) t := by
  cases q with
  | none =>
      have hn : SearchList.next t (.insert i 0 0) =
          some (t.setInsert i (if n < 25 then .lock else .check)) := by
        simp only [SearchList.next, SearchList.stepInsert, h.inserting i, hc,
          linkedListSize_spec h.list', ← hq, passed]
      exact .inr ⟨_, _, hn, xs, h.moveInsert trivial hdebt.symm⟩
  | some p => exact .inl ⟨xs, h.stayInsert hc.symm hq hdebt.symm⟩

theorem stepInsert_refused {rand : Nat} {addr : Ptr} (hpc : s.inserting i = .lock)
    (hn : stepInsert s i rand addr = some (s.setInsert i .check)) :
    ∃ u, s.insertLock = some u := by
  refine Option.ne_none_iff_exists'.mp fun hnone => ?_
  simp only [stepInsert, hpc, hnone] at hn
  have hpc' := congrArg (fun s => s.inserting i) (Option.some.inj hn)
  simp [State.setInsert] at hpc'

theorem insertDebt_inside (hok : HopsOk s) (hin : (s.inserting i).inside = true) :
    s.insertLock = some (.insert i) ∧ s.insertDebt = (s.inserting i).debt s.store.cells ∧
      s.deleteDebt = [] := by
  have hlock : s.insertLock = some (.insert i) := hok.exclusive.1 (.insert i) hin
  simp only [State.insertDebt, State.deleteDebt, hlock]
  exact ⟨trivial, trivial, trivial⟩

/-- A step inside the section: nodes `zs` are appended, and the others do not mind. -/
theorem Follows.insertActs (h : Follows s t xs) (hok : HopsOk s)
    (hin : s.inInsert (.insert i) = true) {st st' : Store} {zs : List (Ptr × Nat)}
    {out : List Print} {out' : List Line} (hlist : st.Holds (xs ++ zs))
    (hlist' : st'.Holds (xs ++ zs))
    (hmemory : ∀ p, st.cells.lookup p = none → st'.cells.lookup p = none)
    (hat : InsertAt st.cells st'.cells (xs ++ zs) x)
    (hins : insertedPrints out = insertedValues out' ++ x.debt st.cells)
    (hdel : deletedPrints out = deletedPrints s.output ∧
      deletedValues out' = deletedValues t.output)
    (hsea : searchPrints out = searchPrints s.output ∧
      out'.flatMap render = t.output.flatMap render) :
    Follows { s.setInsert i x with store := st, output := out }
      { t.setInsert i x.coarse with store := st', output := out' } (xs ++ zs) := by
  obtain ⟨hlock, -, hdebt⟩ := insertDebt_inside hok hin
  obtain ⟨hsizing, hsizing', hdebt'⟩ := hok.passed_grows h.list zs
  have hdeleted := h.deleted
  rw [hdebt, ← hdel.1, ← hdel.2] at hdeleted
  constructor
  case inserting => exact update_coarse h.inserting i x
  case deleting => exact h.deleting
  case searching => exact h.searching
  case insertLock => exact h.insertLock
  case searchLock => exact h.searchLock
  case list => exact hlist
  case list' => exact hlist'
  case memory => exact hmemory
  case insertAt =>
    refine (Function.forall_update_iff s.inserting
      fun _ => InsertAt st.cells st'.cells (xs ++ zs)).mpr ⟨hat, fun j hj => ?_⟩
    exact (h.insertAt j).outside (hok.insert_outside hin fun heq => hj (Tid.insert.inj heq))
      (hsizing j)
  case deleteAt =>
    exact fun j => (h.deleteAt j).outside (hok.delete_outside hin nofun) (hsizing' j)
  case inserted =>
    rw [hins]
    simp [State.insertDebt, State.setInsert, hlock]
  case deleted =>
    rw [hdeleted]
    simp [State.deleteDebt, State.setInsert, hlock]
  case searched =>
    have hsearched := h.searched
    rw [← hsea.1, ← hsea.2, ← hdebt'] at hsearched
    exact hsearched

/-- `malloc`, and the announcement. On an empty list that is all there is to come. -/
theorem Follows.newNode (h : Follows s t xs) (hok : HopsOk s) {rand : Nat} {addr : Ptr}
    (hpc : s.inserting i = .locked) (hfresh : s.store.cells.lookup addr = none)
    (hx : s.store.head = none ∧ x = .unlock ∨ s.store.head ≠ none ∧ x = .walking addr .head) :
    Answered { s.setInsert i x with
      store := s.store.newNode addr (rand % 10)
      output := s.output ++ [.inserted (rand % 10)] } t := by
  have hin : s.inInsert (.insert i) = true := by
    change (s.inserting i).inside = true
    rw [hpc]
    rfl
  have hlist : (s.store.newNode addr (rand % 10)).Holds (xs ++ []) := by
    rw [List.append_nil]
    exact Seg.insert h.list (Seg.not_mem_of_fresh h.list hfresh) _
  have hmemory (p : Ptr) (hp : (s.store.newNode addr (rand % 10)).cells.lookup p = none) :
      p ≠ addr ∧ t.store.cells.lookup p = none := by
    by_cases hpa : p = addr
    · subst hpa
      rw [Store.newNode, AList.lookup_insert] at hp
      cases hp
    · rw [Store.newNode, AList.lookup_insert_ne hpa] at hp
      exact ⟨hpa, h.memory p hp⟩
  have htfresh := h.memory addr hfresh
  have hinserted := h.inserted
  rw [(insertDebt_inside hok hin).2.1, hpc,
    show InsertPc.locked.debt s.store.cells = [] from rfl, List.append_nil] at hinserted
  rcases hx with ⟨hhead, rfl⟩ | ⟨hhead, rfl⟩
  · -- the counterpart loses its node, too
    obtain rfl : xs = [] := by
      have hholds := h.list
      rw [Store.Holds, hhead] at hholds
      exact (seg_none hholds).1
    obtain ⟨st, hst, hlist'⟩ := insertSection_empty h.list' rand addr
    have hn : SearchList.next t (.insert i rand addr) = some { t.setInsert i .unlock with
        store := st, output := t.output ++ [.inserted (rand % 10)] } := by
      simp only [SearchList.next, SearchList.stepInsert, h.inserting i, hpc, InsertPc.coarse,
        htfresh, hst]
    refine .inr ⟨_, _, hn, _, h.insertActs hok hin hlist hlist' (fun p hp => ?_) trivial ?_ ?_ ?_⟩
    · obtain ⟨hne, hfree⟩ := hmemory p hp
      exact insertSection_memory hst hne hfree
    · simp [insertedPrints, insertedValues, InsertPc.debt] at hinserted ⊢
      exact hinserted
    · simp [deletedPrints, deletedValues]
    · simp [searchPrints, render]
  · have hsame : { t.setInsert i (.walking addr .head : InsertPc).coarse with
        store := t.store, output := t.output } = t := by
      have hc : (.walking addr .head : InsertPc).coarse = t.inserting i := by
        rw [h.inserting i, hpc]
        rfl
      rw [hc, SearchList.State.setInsert, Function.update_eq_self]
    have hlist' : t.store.Holds (xs ++ []) := by
      rw [List.append_nil]
      exact h.list'
    refine .inl ⟨xs ++ [], ?_⟩
    rw [← hsame]
    refine h.insertActs hok hin hlist hlist' (fun p hp => (hmemory p hp).2) ?_ ?_ ?_ ?_
    · exact ⟨htfresh, rand % 10, Nat.mod_lt _ (by decide), AList.lookup_insert _⟩
    · have hdebt : (InsertPc.walking addr .head).debt
          (s.store.newNode addr (rand % 10)).cells = [rand % 10] := by
        rw [InsertPc.debt, Store.newNode, AList.lookup_insert]
        rfl
      rw [hdebt, ← hinserted]
      simp [insertedPrints]
    · simp [deletedPrints]
    · simp [searchPrints]

/-- The node is linked in, for the counterpart as well. -/
theorem Follows.link (h : Follows s t xs) (hok : HopsOk s) {a : Ptr} {l : Link} {st : Store}
    (hpc : s.inserting i = .link a l) (hwrite : s.store.write (some a) l = some st) :
    Answered { s.setInsert i .unlock with store := st } t := by
  have hin : s.inInsert (.insert i) = true := by
    change (s.inserting i).inside = true
    rw [hpc]
    rfl
  have hat := h.insertAt i
  have hon := hok.threadOk h.list (.insert i)
  rw [ThreadOk] at hon
  rw [hpc] at hat hon
  obtain ⟨htfresh, v, hv, hnode⟩ := hat
  obtain ⟨-, hnew, ys, x, hxs, rfl⟩ := hon
  have hinserted := h.inserted
  rw [(insertDebt_inside hok hin).2.1, hpc, InsertPc.debt, hnode] at hinserted
  have hne : xs ≠ [] := by
    rw [hxs]
    exact List.append_ne_nil_of_right_ne_nil _ (List.cons_ne_nil _ _)
  have hlist : st.Holds (xs ++ [(a, v)]) := by
    have hh := h.list
    rw [hxs] at hh hnew ⊢
    obtain ⟨nx, hlook⟩ := hh.lookup x (by simp)
    simp only [Store.write, hlook] at hwrite
    obtain rfl := Option.some.inj hwrite
    exact Seg.linkLast hh hnode hnew
  obtain ⟨st', hst', hlist'⟩ := insertSection_append h.list' hne v htfresh
  rw [Nat.mod_eq_of_lt hv] at hlist'
  have hn : SearchList.next t (.insert i v a) = some { t.setInsert i .unlock with
      store := st', output := t.output ++ [.inserted (v % 10)] } := by
    simp only [SearchList.next, SearchList.stepInsert, h.inserting i, hpc, InsertPc.coarse,
      htfresh, hst']
  refine .inr ⟨_, _, hn, _, h.insertActs hok hin hlist hlist' (fun p hp => ?_) trivial ?_ ?_ ?_⟩
  · have hp' := (write_memory hwrite).mp hp
    refine insertSection_memory hst' ?_ (h.memory p hp')
    rintro rfl
    rw [hnode] at hp'
    cases hp'
  · refine hinserted.trans ?_
    simp [insertedValues, InsertPc.debt, Nat.mod_eq_of_lt hv]
  · exact ⟨rfl, by simp [deletedValues]⟩
  · exact ⟨rfl, by simp [render]⟩

theorem follows_insert (hok : HopsOk s) (h : Follows s t xs) {rand : Nat} {addr : Ptr}
    (hn : stepInsert s i rand addr = some s') : Answered s' t := by
  have hat := h.insertAt i
  have hon := hok.threadOk h.list (.insert i)
  have htpc := h.inserting i
  rw [ThreadOk] at hon
  cases stepInsert_cases hn with
  | check hpc =>
      refine h.insertSizes (by rw [hpc]; rfl) (by rw [hpc]; rfl) ?_
      rw [passed_head h.list, List.length_nil]
  | hop hpc hlook =>
      rw [hpc] at hat hon
      refine h.insertSizes (by rw [hpc]; rfl) (by rw [hpc]; rfl) ?_
      rw [passed_hop h.list hon hlook, List.length_append, hat, List.length_singleton]
  | @sized n hpc =>
      refine .inl ⟨xs, h.stayInsert ?_ ?_ ?_⟩
      · rw [hpc]
        by_cases hlt : n < 25 <;> simp [InsertPc.coarse, hlt]
      · split <;> trivial
      · rw [hpc]
        split <;> rfl
  | take hpc hfree =>
      rw [hpc] at htpc
      have htake : SearchList.next t (.insert i 0 0) =
          some { t.setInsert i .locked with insertLock := some (.insert i) } := by
        simp only [SearchList.next, SearchList.stepInsert, htpc, h.insertLock, hfree,
          InsertPc.coarse]
      refine .inr ⟨_, _, htake, xs, h.setInsert (some (.insert i)) rfl trivial ?_ ?_⟩
      · simp [State.insertDebt, State.setInsert, hfree, InsertPc.debt]
      · simp [State.deleteDebt, hfree]
  | refused hpc =>
      rw [hpc] at htpc
      obtain ⟨u, hu⟩ := stepInsert_refused hpc hn
      have hrefused : SearchList.next t (.insert i 0 0) = some (t.setInsert i .check) := by
        simp only [SearchList.next, SearchList.stepInsert, htpc, h.insertLock, hu,
          InsertPc.coarse]
      exact .inr ⟨_, _, hrefused, xs, h.moveInsert trivial (by rw [hpc]; rfl)⟩
  | newNode hpc hfresh hx => exact h.newNode hok hpc hfresh hx
  | walk hpc hread =>
      rw [hpc] at hat
      exact .inl ⟨xs, h.stayInsert (by rw [hpc]; rfl) hat (by rw [hpc]; rfl)⟩
  | last hpc hread =>
      rw [hpc] at hat
      exact .inl ⟨xs, h.stayInsert (by rw [hpc]; rfl) hat (by rw [hpc]; rfl)⟩
  | link hpc hwrite => exact h.link hok hpc hwrite
  | unlock hpc =>
      rw [hpc] at htpc
      obtain ⟨hlock, hdebt, hdebt'⟩ := insertDebt_inside hok (i := i) (by rw [hpc]; rfl)
      have hgive : SearchList.next t (.insert i 0 0) =
          some { t.setInsert i .sleep with insertLock := none } := by
        simp only [SearchList.next, SearchList.stepInsert, htpc, InsertPc.coarse]
      refine .inr ⟨_, _, hgive, xs, h.setInsert none rfl trivial ?_ ?_⟩
      · rw [hdebt, hpc]
        rfl
      · rw [hdebt']
        rfl
  | sleep hpc =>
      rw [hpc] at htpc
      have hwake : SearchList.next t (.insert i 0 0) = some (t.setInsert i .check) := by
        simp only [SearchList.next, SearchList.stepInsert, htpc, InsertPc.coarse]
      exact .inr ⟨_, _, hwake, xs, h.moveInsert trivial (by rw [hpc]; rfl)⟩

end Insert

/-! ## Steps of `delete` -/

section Delete

variable {s s' : State} {t : SearchList.State} {xs : List (Ptr × Nat)} {i : Fin 3} {x : DeletePc}

/-- The local variable does not matter. -/
theorem Follows.setPrev (h : Follows s t xs) (prev prev' : Fin 3 → Option Ptr) :
    Follows { s with prev := prev } { t with prev := prev' } xs where
  inserting := h.inserting
  deleting := h.deleting
  searching := h.searching
  insertLock := h.insertLock
  searchLock := h.searchLock
  list := h.list
  list' := h.list'
  memory := h.memory
  insertAt := h.insertAt
  deleteAt := h.deleteAt
  inserted := h.inserted
  deleted := h.deleted
  searched := h.searched

/-- Nobody's debt changes. -/
structure SameDebts (s s' : State) (xs : List (Ptr × Nat)) : Prop where
  insert : s'.insertDebt = s.insertDebt
  delete : s'.deleteDebt = s.deleteDebt
  search : s'.searchDebt xs = s.searchDebt xs
  rest : s'.searchRest = s.searchRest

/-- The thread goes to `x`, and takes or gives locks. -/
theorem Follows.setDelete (h : Follows s t xs) (ilock slock : Option Tid)
    {ilock' slock' : Option Tid} (hil : ilock' = ilock) (hsl : slock' = slock)
    (hat : DeleteAt s.store.cells t.store.cells xs x)
    (hdebts : SameDebts s
      { s.setDelete i x with insertLock := ilock, searchLock := slock } xs) :
    Follows { s.setDelete i x with insertLock := ilock, searchLock := slock }
      { t.setDelete i x.coarse with insertLock := ilock', searchLock := slock' } xs where
  inserting := h.inserting
  deleting := update_coarse h.deleting i x
  searching := h.searching
  insertLock := hil
  searchLock := hsl
  list := h.list
  list' := h.list'
  memory := h.memory
  insertAt := h.insertAt
  deleteAt := Function.forall_update_iff s.deleting
    (fun _ => DeleteAt s.store.cells t.store.cells xs) |>.mpr ⟨hat, fun j _ => h.deleteAt j⟩
  inserted := by
    rw [hdebts.insert]
    exact h.inserted
  deleted := by
    rw [hdebts.delete]
    exact h.deleted
  searched := by
    rw [hdebts.search, hdebts.rest]
    exact h.searched

theorem sameDebts_setDelete
    (hdebt : x.debt s.store.cells = (s.deleting i).debt s.store.cells) :
    SameDebts s (s.setDelete i x) xs := by
  refine ⟨rfl, ?_, rfl, rfl⟩
  unfold State.deleteDebt State.setDelete
  dsimp only
  split
  · rename_i j _
    by_cases hj : j = i
    · subst hj
      rw [Function.update_self, hdebt]
    · rw [Function.update_of_ne hj]
  · rfl

theorem Follows.moveDelete (h : Follows s t xs) (hat : DeleteAt s.store.cells t.store.cells xs x)
    (hdebt : x.debt s.store.cells = (s.deleting i).debt s.store.cells) :
    Follows (s.setDelete i x) (t.setDelete i x.coarse) xs :=
  h.setDelete s.insertLock s.searchLock h.insertLock h.searchLock hat (sameDebts_setDelete hdebt)

theorem Follows.stayDelete (h : Follows s t xs) (hc : x.coarse = (s.deleting i).coarse)
    (hat : DeleteAt s.store.cells t.store.cells xs x)
    (hdebt : x.debt s.store.cells = (s.deleting i).debt s.store.cells) :
    Follows (s.setDelete i x) t xs := by
  have hmove := h.moveDelete hat hdebt
  rw [hc, ← h.deleting i, SearchList.State.setDelete, Function.update_eq_self] at hmove
  exact hmove

theorem Follows.deleteSizes (h : Follows s t xs) {q : Option Ptr} {n : Nat}
    (hc : (s.deleting i).coarse = .check) (hdebt : (s.deleting i).debt s.store.cells = [])
    (hq : (passed xs q).length = n) : Answered (s.setDelete i (.sizing q n)) t := by
  cases q with
  | none =>
      have hn : SearchList.next t (.delete i 0) =
          some (t.setDelete i (if n > 1 then .lockInsert else .check)) := by
        simp only [SearchList.next, SearchList.stepDelete, h.deleting i, hc,
          linkedListSize_spec h.list', ← hq, passed]
      exact .inr ⟨_, _, hn, xs, h.moveDelete trivial hdebt.symm⟩
  | some p => exact .inl ⟨xs, h.stayDelete hc.symm hq hdebt.symm⟩

theorem stepDelete_refusedInsert {rand : Nat} (hpc : s.deleting i = .lockInsert)
    (hn : stepDelete s i rand = some (s.setDelete i .sleep)) : ∃ u, s.insertLock = some u := by
  refine Option.ne_none_iff_exists'.mp fun hnone => ?_
  simp only [stepDelete, hpc, hnone] at hn
  have hpc' := congrArg (fun s => s.deleting i) (Option.some.inj hn)
  simp [State.setDelete] at hpc'

theorem stepDelete_refusedSearch {rand : Nat} (hpc : s.deleting i = .lockSearch)
    (hn : stepDelete s i rand = some (s.setDelete i .unlockInsert)) :
    ∃ u, s.searchLock = some u := by
  refine Option.ne_none_iff_exists'.mp fun hnone => ?_
  simp only [stepDelete, hpc, hnone] at hn
  have hpc' := congrArg (fun s => s.deleting i) (Option.some.inj hn)
  simp [State.setDelete] at hpc'

theorem debts_insideInsert (hok : HopsOk s) (hin : (s.deleting i).insideInsert = true) :
    s.insertLock = some (.delete i) ∧ s.insertDebt = [] ∧
      s.deleteDebt = (s.deleting i).debt s.store.cells := by
  have hlock : s.insertLock = some (.delete i) := hok.exclusive.1 (.delete i) hin
  simp only [State.insertDebt, State.deleteDebt, hlock]
  exact ⟨trivial, trivial, trivial⟩

theorem debts_insideSearch (hok : HopsOk s) (hin : (s.deleting i).insideSearch = true) :
    s.searchLock = some (.delete i) ∧ (∀ ys, s.searchDebt ys = []) ∧ s.searchRest = [] := by
  have hlock : s.searchLock = some (.delete i) := hok.exclusive.2 (.delete i) hin
  simp only [State.searchDebt, State.searchRest, hlock]
  exact ⟨trivial, fun _ => trivial, trivial⟩

/-- A step inside both locks: the list becomes `xs'`, which no walk of another thread is
on. -/
theorem Follows.deleteActs (h : Follows s t xs) (hok : HopsOk s)
    (hin : (s.deleting i).insideInsert = true) (hin' : (s.deleting i).insideSearch = true)
    {st st' : Store} {xs' : List (Ptr × Nat)} {out : List Print} {out' : List Line}
    (hlist : st.Holds xs') (hlist' : st'.Holds xs')
    (hmemory : ∀ p, st.cells.lookup p = none → st'.cells.lookup p = none)
    (hat : DeleteAt st.cells st'.cells xs' x)
    (hwalks : xs' = xs ∨ ∀ u, u ≠ .delete i → s.sizing u = false)
    (hins : insertedPrints out = insertedPrints s.output ∧
      insertedValues out' = insertedValues t.output)
    (hdel : deletedPrints out = deletedValues out' ++ x.debt st.cells)
    (hsea : searchPrints out = searchPrints s.output ∧
      out'.flatMap render = t.output.flatMap render) :
    Follows { s.setDelete i x with store := st, output := out }
      { t.setDelete i x.coarse with store := st', output := out' } xs' := by
  obtain ⟨hlock, hdebt, -⟩ := debts_insideInsert hok hin
  obtain ⟨hlock', hdebt', hrest⟩ := debts_insideSearch hok hin'
  have hme : s.inInsert (.delete i) = true := hin
  constructor
  case inserting => exact h.inserting
  case deleting => exact update_coarse h.deleting i x
  case searching => exact h.searching
  case insertLock => exact h.insertLock
  case searchLock => exact h.searchLock
  case list => exact hlist
  case list' => exact hlist'
  case memory => exact hmemory
  case insertAt =>
    intro j
    refine (h.insertAt j).outside (hok.insert_outside hme nofun) fun p n hj => ?_
    rcases hwalks with rfl | hwalks
    · rfl
    · have hsize := hwalks (.insert j) nofun
      rw [State.sizing, hj] at hsize
      cases hsize
  case deleteAt =>
    refine (Function.forall_update_iff s.deleting
      fun _ => DeleteAt st.cells st'.cells xs').mpr ⟨hat, fun j hj => ?_⟩
    have hne : Tid.delete j ≠ .delete i := fun heq => hj (Tid.delete.inj heq)
    refine (h.deleteAt j).outside (hok.delete_outside hme hne) fun p n hj' => ?_
    rcases hwalks with rfl | hwalks
    · rfl
    · have hsize := hwalks (.delete j) hne
      rw [State.sizing, hj'] at hsize
      cases hsize
  case inserted =>
    have hinserted := h.inserted
    rw [hdebt, ← hins.1, ← hins.2] at hinserted
    rw [hinserted]
    simp [State.insertDebt, State.setDelete, hlock]
  case deleted =>
    rw [hdel]
    simp [State.deleteDebt, State.setDelete, hlock]
  case searched =>
    have hsearched := h.searched
    rw [hdebt', hrest, ← hsea.1, ← hsea.2] at hsearched
    simp only [State.searchDebt, State.searchRest, State.setDelete, hlock']
    exact hsearched

/-- The section of the counterpart. -/
theorem coarse_delete (ht : t.deleting i = .locked) {v : Nat} {r : Deletion}
    (hr : deleteSection t.store v (t.prev i) = some r) :
    SearchList.next t (.delete i v) = some { t.setDelete i .unlockSearch with
      store := r.store, prev := Function.update t.prev i r.prev,
      output := t.output ++ if r.found then [.deleted (v % 10)] else [] } := by
  simp only [SearchList.next, SearchList.stepDelete, ht, hr]

/-- There is no such node. -/
theorem Follows.notFound (h : Follows s t xs) (hok : HopsOk s) {v : Nat}
    (hpc : s.deleting i = .walking v none) : Answered (s.setDelete i .unlockSearch) t := by
  have hat := h.deleteAt i
  have hdeleted := h.deleted
  rw [(debts_insideInsert hok (i := i) (by rw [hpc]; rfl)).2.2, hpc] at hdeleted
  rw [hpc] at hat
  obtain ⟨hv, hnone⟩ := hat
  rw [passed] at hnone
  have ht : t.deleting i = .locked := by
    rw [h.deleting i, hpc]
    rfl
  obtain ⟨r, hr, hlist', hfound, hfrees⟩ := deleteSection_spec h.list' v (t.prev i)
  rw [Nat.mod_eq_of_lt hv] at hlist' hfound hfrees
  rw [List.eraseP_of_forall_not (by simpa using hnone)] at hlist'
  rw [List.find?_eq_none.mpr (by simpa using hnone)] at hfrees
  have hnot : r.found = false := by
    refine Bool.eq_false_of_not_eq_true fun hf => ?_
    obtain ⟨y, hy, hyv⟩ := List.mem_map.mp (hfound.mp hf)
    exact hnone y hy hyv
  have hn := coarse_delete ht hr
  rw [hnot] at hn
  have hdone : DeleteAt s.store.cells r.store.cells xs .unlockSearch := trivial
  refine .inr ⟨_, _, hn, xs, (h.deleteActs hok (i := i) (by rw [hpc]; rfl) (by rw [hpc]; rfl)
    h.list hlist' (fun p hp => (hfrees p).mpr (.inl (h.memory p hp))) hdone (.inl rfl)
    ?_ ?_ ?_).setPrev s.prev _⟩
  · simp
  · simp only [Bool.false_eq_true, if_false, List.append_nil] at hdeleted ⊢
    exact hdeleted
  · simp

/-- The node is unlinked; for the counterpart it is freed with that. -/
theorem Follows.unlink (h : Follows s t xs) (hok : HopsOk s) {d : Ptr} {st : Store}
    (hpc : s.deleting i = .unlink d) (hst : unlinkNode s.store d (s.prev i) = some st)
    (hno : ∀ u, u ≠ .delete i → s.sizing u = false) :
    Answered { s.setDelete i (.free d) with store := st } t := by
  have hat := h.deleteAt i
  have hon := hok.threadOk h.list (.delete i)
  have hdeleted := h.deleted
  rw [(debts_insideInsert hok (i := i) (by rw [hpc]; rfl)).2.2, hpc] at hdeleted
  rw [ThreadOk] at hon
  rw [hpc] at hat hon
  obtain ⟨v, hv, ⟨nx, hlook⟩, hfirst⟩ := hat
  obtain ⟨ys, z, zs, rfl, rfl, hprev⟩ := hon
  obtain ⟨nx', hlook'⟩ := h.list.lookup z (by simp)
  obtain ⟨rfl, rfl⟩ := Node.mk.inj (Option.some.inj (hlook'.symm.trans hlook))
  obtain ⟨hlist, -⟩ := unlinkNode_spec h.list hprev hst
  obtain ⟨q, -, hseg⟩ := seg_append.mp h.list
  obtain rfl : q = some z.1 := hseg.1
  rw [passed_split h.list hseg] at hfirst
  have ht : t.deleting i = .locked := by
    rw [h.deleting i, hpc]
    rfl
  obtain ⟨r, hr, hlist', hfound, hfrees⟩ := deleteSection_spec h.list' z.2 (t.prev i)
  rw [Nat.mod_eq_of_lt hv] at hlist' hfound hfrees
  rw [List.eraseP_append_right _ (by simpa using hfirst),
    List.eraseP_cons_of_pos (by simp)] at hlist'
  have hfind : (ys ++ z :: zs).find? (fun x => x.2 = z.2) = some z := by
    rw [List.find?_append, List.find?_eq_none.mpr (by simpa using hfirst)]
    simp
  rw [hfind] at hfrees
  have hn := coarse_delete ht hr
  rw [hfound.mpr (by simp), Nat.mod_eq_of_lt hv] at hn
  refine .inr ⟨_, _, hn, ys ++ zs, (h.deleteActs hok (i := i) (by rw [hpc]; rfl)
    (by rw [hpc]; rfl) hlist hlist' (fun p hp => ?_) ?_ (.inr hno) ?_ ?_ ?_).setPrev s.prev _⟩
  · exact (hfrees p).mpr (.inl (h.memory p (unlinkNode_memory hst hp)))
  · exact (hfrees z.1).mpr (.inr ⟨z, rfl, rfl⟩)
  · exact ⟨rfl, by simp [insertedValues]⟩
  · refine hdeleted.trans ?_
    simp [deletedValues, DeletePc.debt, hlook]
  · exact ⟨rfl, by simp [render]⟩

/-- A step inside both locks that the counterpart does not notice. -/
theorem Follows.stayActs (h : Follows s t xs) (hok : HopsOk s)
    (hin : (s.deleting i).insideInsert = true) (hin' : (s.deleting i).insideSearch = true)
    (hc : x.coarse = (s.deleting i).coarse) {st : Store} {out : List Print}
    (hlist : st.Holds xs) (hmemory : ∀ p, st.cells.lookup p = none → t.store.cells.lookup p = none)
    (hat : DeleteAt st.cells t.store.cells xs x)
    (hins : insertedPrints out = insertedPrints s.output)
    (hdel : deletedPrints out = deletedValues t.output ++ x.debt st.cells)
    (hsea : searchPrints out = searchPrints s.output) :
    Follows { s.setDelete i x with store := st, output := out } t xs := by
  have hacts := h.deleteActs hok hin hin' hlist h.list' hmemory hat (.inl rfl) ⟨hins, rfl⟩ hdel
    ⟨hsea, rfl⟩
  rw [hc, ← h.deleting i, SearchList.State.setDelete, Function.update_eq_self] at hacts
  exact hacts

theorem follows_delete (hok : HopsOk s) (h : Follows s t xs) {rand : Nat}
    (hno : NoSizing s (.delete i rand)) (hn : stepDelete s i rand = some s') : Answered s' t := by
  have hat := h.deleteAt i
  have hon := hok.threadOk h.list (.delete i)
  have htpc := h.deleting i
  rw [ThreadOk] at hon
  cases stepDelete_cases hn with
  | check hpc =>
      refine h.deleteSizes (by rw [hpc]; rfl) (by rw [hpc]; rfl) ?_
      rw [passed_head h.list, List.length_nil]
  | hop hpc hlook =>
      rw [hpc] at hat hon
      refine h.deleteSizes (by rw [hpc]; rfl) (by rw [hpc]; rfl) ?_
      rw [passed_hop h.list hon hlook, List.length_append, hat, List.length_singleton]
  | @sized n hpc =>
      refine .inl ⟨xs, h.stayDelete ?_ ?_ ?_⟩
      · rw [hpc]
        by_cases hgt : n > 1 <;> simp [DeletePc.coarse, hgt]
      · split <;> trivial
      · rw [hpc]
        split <;> rfl
  | takeInsert hpc hfree =>
      rw [hpc] at htpc
      have htake : SearchList.next t (.delete i 0) =
          some { t.setDelete i .lockSearch with insertLock := some (.delete i) } := by
        simp only [SearchList.next, SearchList.stepDelete, htpc, h.insertLock, hfree,
          DeletePc.coarse]
      refine .inr ⟨_, _, htake, xs, h.setDelete (some (.delete i)) s.searchLock rfl h.searchLock
        trivial ⟨?_, ?_, rfl, rfl⟩⟩
      · simp [State.insertDebt, hfree]
      · simp [State.deleteDebt, State.setDelete, hfree, DeletePc.debt]
  | refusedInsert hpc =>
      rw [hpc] at htpc
      obtain ⟨u, hu⟩ := stepDelete_refusedInsert hpc hn
      have hrefused : SearchList.next t (.delete i 0) = some (t.setDelete i .sleep) := by
        simp only [SearchList.next, SearchList.stepDelete, htpc, h.insertLock, hu,
          DeletePc.coarse]
      exact .inr ⟨_, _, hrefused, xs, h.moveDelete trivial (by rw [hpc]; rfl)⟩
  | takeSearch hpc hfree =>
      rw [hpc] at htpc
      have htake : SearchList.next t (.delete i 0) =
          some { t.setDelete i .locked with searchLock := some (.delete i) } := by
        simp only [SearchList.next, SearchList.stepDelete, htpc, h.searchLock, hfree,
          DeletePc.coarse]
      obtain ⟨-, hdelete, -, -⟩ := @sameDebts_setDelete s xs i .locked (by rw [hpc]; rfl)
      refine .inr ⟨_, _, htake, xs, h.setDelete s.insertLock (some (.delete i)) h.insertLock rfl
        trivial ⟨rfl, hdelete, ?_, ?_⟩⟩
      · simp [State.searchDebt, hfree]
      · simp [State.searchRest, hfree]
  | refusedSearch hpc =>
      rw [hpc] at htpc
      obtain ⟨u, hu⟩ := stepDelete_refusedSearch hpc hn
      have hrefused : SearchList.next t (.delete i 0) = some (t.setDelete i .unlockInsert) := by
        simp only [SearchList.next, SearchList.stepDelete, htpc, h.searchLock, hu,
          DeletePc.coarse]
      exact .inr ⟨_, _, hrefused, xs, h.moveDelete trivial (by rw [hpc]; rfl)⟩
  | draw hpc =>
      refine .inl ⟨xs, h.stayDelete (by rw [hpc]; rfl) ⟨Nat.mod_lt _ (by decide), ?_⟩
        (by rw [hpc]; rfl)⟩
      rw [passed_head h.list]
      exact List.forall_mem_nil _
  | notFound hpc => exact h.notFound hok hpc
  | @found v d node hpc hlook hval =>
      have hdeleted := h.deleted
      rw [(debts_insideInsert hok (i := i) (by rw [hpc]; rfl)).2.2, hpc] at hdeleted
      rw [hpc] at hat
      have hunlink : DeleteAt s.store.cells t.store.cells xs (.unlink d) :=
        ⟨v, hat.1, ⟨node.next, by rw [hlook, ← hval]⟩, hat.2⟩
      have hsaid : deletedPrints (s.output ++ [.deleted v]) =
          deletedValues t.output ++ (DeletePc.unlink d).debt s.store.cells := by
        rw [DeletePc.debt, hlook, ← hval]
        simp only [deletedPrints, DeletePc.debt, List.append_nil] at hdeleted ⊢
        simp [hdeleted]
      refine .inl ⟨xs, h.stayActs hok (by rw [hpc]; rfl) (by rw [hpc]; rfl) (by rw [hpc]; rfl)
        h.list h.memory hunlink ?_ hsaid ?_⟩
      · simp [insertedPrints]
      · simp [searchPrints]
  | @walk v d node hpc hlook hval =>
      rw [hpc] at hat hon
      obtain ⟨ys, z, zs, rfl, rfl, -, -⟩ := walk_at hon
      have hmem : z.1 ∈ (ys ++ z :: zs).map Prod.fst := List.mem_map_of_mem (by simp)
      have hwalk : DeleteAt s.store.cells t.store.cells (ys ++ z :: zs) (.walking v node.next) := by
        refine ⟨hat.1, ?_⟩
        rw [passed_hop h.list hmem hlook]
        intro y hy
        rcases List.mem_append.mp hy with hy | hy
        · exact hat.2 y hy
        · rw [List.mem_singleton.mp hy]
          exact hval
      exact .inl ⟨_, (h.stayDelete (by rw [hpc]; rfl) hwalk (by rw [hpc]; rfl)).setPrev _ t.prev⟩
  | unlink hpc hst =>
      refine h.unlink hok hpc hst (hno ?_)
      rw [removes, hpc]
  | @free d hpc hlook =>
      have hdeleted := h.deleted
      rw [(debts_insideInsert hok (i := i) (by rw [hpc]; rfl)).2.2, hpc] at hdeleted
      rw [hpc] at hat hon
      refine .inl ⟨xs, h.stayActs hok (by rw [hpc]; rfl) (by rw [hpc]; rfl) (by rw [hpc]; rfl)
        (Seg.erase h.list hon.2) (fun p hp => ?_) trivial rfl hdeleted rfl⟩
      by_cases hpd : p = d
      · rw [hpd]
        exact hat
      · dsimp only at hp
        rw [AList.lookup_erase_ne hpd] at hp
        exact h.memory p hp
  | unlockSearch hpc =>
      rw [hpc] at htpc
      obtain ⟨-, hdebt, hrest⟩ := debts_insideSearch hok (i := i) (by rw [hpc]; rfl)
      have hgive : SearchList.next t (.delete i 0) =
          some { t.setDelete i .unlockInsert with searchLock := none } := by
        simp only [SearchList.next, SearchList.stepDelete, htpc, DeletePc.coarse]
      obtain ⟨-, hdelete, -, -⟩ := @sameDebts_setDelete s xs i .unlockInsert (by rw [hpc]; rfl)
      refine .inr ⟨_, _, hgive, xs, h.setDelete s.insertLock none h.insertLock rfl trivial
        ⟨rfl, hdelete, ?_, ?_⟩⟩
      · rw [hdebt]
        rfl
      · rw [hrest]
        rfl
  | unlockInsert hpc =>
      rw [hpc] at htpc
      obtain ⟨-, hdebt, hdebt'⟩ := debts_insideInsert hok (i := i) (by rw [hpc]; rfl)
      have hgive : SearchList.next t (.delete i 0) =
          some { t.setDelete i .sleep with insertLock := none } := by
        simp only [SearchList.next, SearchList.stepDelete, htpc, DeletePc.coarse]
      refine .inr ⟨_, _, hgive, xs, h.setDelete none s.searchLock rfl h.searchLock trivial
        ⟨?_, ?_, rfl, rfl⟩⟩
      · rw [hdebt]
        rfl
      · rw [hdebt', hpc]
        rfl
  | sleep hpc =>
      rw [hpc] at htpc
      have hwake : SearchList.next t (.delete i 0) = some (t.setDelete i .check) := by
        simp only [SearchList.next, SearchList.stepDelete, htpc, DeletePc.coarse]
      exact .inr ⟨_, _, hwake, xs, h.moveDelete trivial (by rw [hpc]; rfl)⟩

end Delete

/-! ## Steps of `search` -/

section Search

variable {s s' : State} {t : SearchList.State} {xs : List (Ptr × Nat)} {i : Fin 3} {x : SearchPc}

/-- The thread goes to `x`; the others' announcements are as they were. -/
theorem Follows.setSearch (h : Follows s t xs) (lock : Option Tid) {lock' : Option Tid}
    (hlock : lock' = lock) {out : List Print} {out' : List Line}
    (hins : insertedPrints out = insertedPrints s.output ∧
      insertedValues out' = insertedValues t.output)
    (hdel : deletedPrints out = deletedPrints s.output ∧
      deletedValues out' = deletedValues t.output)
    (hsea : searchPrints out ++
        ({ s.setSearch i x with searchLock := lock } : State).searchRest =
      out'.flatMap render ++
        ({ s.setSearch i x with searchLock := lock } : State).searchDebt xs) :
    Follows { s.setSearch i x with searchLock := lock, output := out }
      { t.setSearch i x.coarse with searchLock := lock', output := out' } xs where
  inserting := h.inserting
  deleting := h.deleting
  searching := update_coarse h.searching i x
  insertLock := h.insertLock
  searchLock := hlock
  list := h.list
  list' := h.list'
  memory := h.memory
  insertAt := h.insertAt
  deleteAt := h.deleteAt
  inserted := by
    dsimp only
    rw [hins.1, hins.2]
    exact h.inserted
  deleted := by
    dsimp only
    rw [hdel.1, hdel.2]
    exact h.deleted
  searched := hsea

/-- A step without a print. -/
theorem Follows.moveSearch (h : Follows s t xs) (lock : Option Tid) {lock' : Option Tid}
    (hlock : lock' = lock)
    (hrest : ({ s.setSearch i x with searchLock := lock } : State).searchRest = s.searchRest)
    (hdebt : ({ s.setSearch i x with searchLock := lock } : State).searchDebt xs =
      s.searchDebt xs) :
    Follows { s.setSearch i x with searchLock := lock }
      { t.setSearch i x.coarse with searchLock := lock' } xs := by
  refine h.setSearch lock hlock ⟨rfl, rfl⟩ ⟨rfl, rfl⟩ ?_
  rw [hrest, hdebt]
  exact h.searched

/-- Outside a walk nothing is owed. -/
theorem search_debts (hrest : (s.searching i).rest = []) (hdebt : (s.searching i).debt xs = [])
    (hrest' : x.rest = []) (hdebt' : x.debt xs = []) :
    (s.setSearch i x).searchRest = s.searchRest ∧
      (s.setSearch i x).searchDebt xs = s.searchDebt xs := by
  unfold State.searchRest State.searchDebt State.setSearch
  dsimp only
  split
  · rename_i j _
    by_cases hj : j = i
    · subst hj
      rw [Function.update_self, hrest, hdebt, hrest', hdebt']
      exact ⟨rfl, rfl⟩
    · rw [Function.update_of_ne hj]
      exact ⟨rfl, rfl⟩
  · exact ⟨rfl, rfl⟩

theorem stepSearch_refused (hpc : s.searching i = .lock)
    (hn : stepSearch s i = some (s.setSearch i .sleep)) : ∃ u, s.searchLock = some u := by
  refine Option.ne_none_iff_exists'.mp fun hnone => ?_
  simp only [stepSearch, hpc, hnone] at hn
  have hpc' := congrArg (fun s => s.searching i) (Option.some.inj hn)
  simp [State.setSearch] at hpc'

theorem search_inside (xs : List (Ptr × Nat)) (hok : HopsOk s)
    (hin : (s.searching i).inside = true) :
    s.searchLock = some (.search i) ∧ s.searchRest = (s.searching i).rest ∧
      s.searchDebt xs = (s.searching i).debt xs := by
  have hlock : s.searchLock = some (.search i) := hok.exclusive.2 (.search i) hin
  simp only [State.searchRest, State.searchDebt, hlock]
  exact ⟨trivial, trivial, trivial⟩

/-- The counterpart does not notice. -/
theorem Follows.staySearch (h : Follows s t xs) (hc : x.coarse = (s.searching i).coarse)
    {out : List Print} (hins : insertedPrints out = insertedPrints s.output)
    (hdel : deletedPrints out = deletedPrints s.output)
    (hsea : searchPrints out ++ (s.setSearch i x).searchRest =
      t.output.flatMap render ++ (s.setSearch i x).searchDebt xs) :
    Follows { s.setSearch i x with output := out } t xs := by
  have hmove := h.setSearch s.searchLock h.searchLock ⟨hins, rfl⟩ ⟨hdel, rfl⟩ hsea
  rw [hc, ← h.searching i, SearchList.State.setSearch, Function.update_eq_self] at hmove
  exact hmove

/-- The next value is printed. With the last one the search is over. -/
theorem Follows.searchHop (h : Follows s t xs) (hok : HopsOk s) {p : Ptr} {node : Node Ptr Nat}
    (hpc : s.searching i = .walking (some p)) (hlook : s.store.cells.lookup p = some node) :
    Answered { s.setSearch i (.walking node.next) with
      output := s.output ++ [.value node.val] } t := by
  obtain ⟨hlock, hrest, hdebt⟩ := search_inside xs hok (i := i) (by rw [hpc]; rfl)
  have hon := hok.threadOk h.list (.search i)
  have hsearched := h.searched
  rw [ThreadOk, hpc] at hon
  rw [hrest, hdebt, hpc] at hsearched
  have hhop := passed_hop h.list hon hlook
  -- what has been printed with this value
  have hprinted : searchPrints (s.output ++ [.value node.val]) = t.output.flatMap render ++
      .searching :: (passed xs node.next).map fun x => .value x.2 := by
    rw [hhop]
    simp only [searchPrints, SearchPc.rest, SearchPc.debt, List.append_nil] at hsearched
    simp [searchPrints, hsearched]
  cases hnext : node.next with
  | none =>
      rw [hnext, passed] at hprinted
      have hhead : ∃ q, t.store.head = some q := by
        refine Option.ne_none_iff_exists'.mp fun hnone => ?_
        have hholds := h.list'
        rw [Store.Holds, hnone] at hholds
        rw [(seg_none hholds).1] at hon
        cases hon
      obtain ⟨q, hq⟩ := hhead
      have hn : SearchList.next t (.search i) = some { t.setSearch i .unlock with
          output := t.output ++ [.searched (xs.map Prod.snd)] } := by
        simp only [SearchList.next, SearchList.stepSearch, h.searching i, hpc, SearchPc.coarse, hq,
          values_spec h.list']
      refine .inr ⟨_, _, hn, xs, h.setSearch s.searchLock h.searchLock ?_ ?_ ?_⟩
      · simp [insertedPrints, insertedValues]
      · simp [deletedPrints, deletedValues]
      · rw [hprinted]
        simp [State.searchRest, State.searchDebt, State.setSearch, hlock, SearchPc.rest,
          SearchPc.debt, render]
  | some q =>
      rw [hnext] at hprinted
      refine .inl ⟨xs, h.staySearch (by rw [hpc]; rfl) ?_ ?_ ?_⟩
      · simp [insertedPrints]
      · simp [deletedPrints]
      · rw [hprinted]
        simp [State.searchRest, State.searchDebt, State.setSearch, hlock, SearchPc.rest,
          SearchPc.debt]

theorem follows_search (hok : HopsOk s) (h : Follows s t xs) (hn : stepSearch s i = some s') :
    Answered s' t := by
  have htpc := h.searching i
  have hsearched := h.searched
  cases stepSearch_cases hn with
  | take hpc hfree =>
      rw [hpc] at htpc
      have htake : SearchList.next t (.search i) =
          some { t.setSearch i .locked with searchLock := some (.search i) } := by
        simp only [SearchList.next, SearchList.stepSearch, htpc, h.searchLock, hfree,
          SearchPc.coarse]
      refine .inr ⟨_, _, htake, xs, h.moveSearch (some (.search i)) rfl ?_ ?_⟩
      · simp [State.searchRest, State.setSearch, hfree, SearchPc.rest]
      · simp [State.searchDebt, State.setSearch, hfree, SearchPc.debt]
  | refused hpc =>
      rw [hpc] at htpc
      obtain ⟨u, hu⟩ := stepSearch_refused hpc hn
      have hrefused : SearchList.next t (.search i) = some (t.setSearch i .sleep) := by
        simp only [SearchList.next, SearchList.stepSearch, htpc, h.searchLock, hu,
          SearchPc.coarse]
      obtain ⟨hrest, hdebt⟩ := @search_debts s xs i .sleep (by rw [hpc]; rfl) (by rw [hpc]; rfl)
        rfl rfl
      exact .inr ⟨_, _, hrefused, xs, h.moveSearch s.searchLock h.searchLock hrest hdebt⟩
  | empty hpc hhead =>
      rw [hpc] at htpc
      obtain ⟨hlock, hrest, hdebt⟩ := search_inside xs hok (i := i) (by rw [hpc]; rfl)
      rw [hrest, hdebt, hpc] at hsearched
      have hthead : t.store.head = none := by
        have hholds := h.list
        have hholds' := h.list'
        rw [Store.Holds, hhead] at hholds
        rw [(seg_none hholds).1] at hholds'
        exact hholds'
      have hempty : SearchList.next t (.search i) =
          some { t.setSearch i .lock with output := t.output ++ [.empty] } := by
        simp only [SearchList.next, SearchList.stepSearch, htpc, hthead, SearchPc.coarse]
      refine .inr ⟨_, _, hempty, xs, h.setSearch s.searchLock h.searchLock ?_ ?_ ?_⟩
      · simp [insertedPrints, insertedValues]
      · simp [deletedPrints, deletedValues]
      · simp only [searchPrints, SearchPc.rest, SearchPc.debt, List.append_nil] at hsearched
        simp [State.searchRest, State.searchDebt, State.setSearch, hlock, SearchPc.rest,
          SearchPc.debt, render, searchPrints, hsearched]
  | @first p hpc hhead =>
      obtain ⟨hlock, hrest, hdebt⟩ := search_inside xs hok (i := i) (by rw [hpc]; rfl)
      rw [hrest, hdebt, hpc] at hsearched
      have hpassed := passed_head h.list
      rw [hhead] at hpassed
      refine .inl ⟨xs, h.staySearch (by rw [hpc]; rfl) ?_ ?_ ?_⟩
      · simp [insertedPrints]
      · simp [deletedPrints]
      · simp only [searchPrints, SearchPc.rest, SearchPc.debt, List.append_nil] at hsearched
        simp [State.searchRest, State.searchDebt, State.setSearch, hlock, SearchPc.rest,
          SearchPc.debt, searchPrints, hsearched, hpassed]
  | walk hpc hlook => exact h.searchHop hok hpc hlook
  | last hpc =>
      obtain ⟨hlock, hrest, hdebt⟩ := search_inside xs hok (i := i) (by rw [hpc]; rfl)
      rw [hrest, hdebt, hpc] at hsearched
      refine .inl ⟨xs, h.staySearch (by rw [hpc]; rfl) ?_ ?_ ?_⟩
      · simp [insertedPrints]
      · simp [deletedPrints]
      · simp only [searchPrints, SearchPc.rest, SearchPc.debt, List.append_nil] at hsearched
        simp [State.searchRest, State.searchDebt, State.setSearch, hlock, SearchPc.rest,
          SearchPc.debt, searchPrints, hsearched]
  | unlock hpc =>
      rw [hpc] at htpc
      obtain ⟨hlock, hrest, hdebt⟩ := search_inside xs hok (i := i) (by rw [hpc]; rfl)
      have hgive : SearchList.next t (.search i) =
          some { t.setSearch i .sleep with searchLock := none } := by
        simp only [SearchList.next, SearchList.stepSearch, htpc, SearchPc.coarse]
      refine .inr ⟨_, _, hgive, xs, h.moveSearch none rfl ?_ ?_⟩
      · rw [hrest, hpc]
        rfl
      · rw [hdebt, hpc]
        rfl
  | sleep hpc =>
      rw [hpc] at htpc
      have hwake : SearchList.next t (.search i) = some (t.setSearch i .lock) := by
        simp only [SearchList.next, SearchList.stepSearch, htpc, SearchPc.coarse]
      obtain ⟨hrest, hdebt⟩ := @search_debts s xs i .lock (by rw [hpc]; rfl) (by rw [hpc]; rfl)
        rfl rfl
      exact .inr ⟨_, _, hwake, xs, h.moveSearch s.searchLock h.searchLock hrest hdebt⟩

end Search

/-! ## Runs -/

theorem Follows.next {s s' : State} {t : SearchList.State} {xs : List (Ptr × Nat)} {a : Label}
    (h : Follows s t xs) (hok : HopsOk s) (hno : NoSizing s a) (hn : next s a = some s') :
    Answered s' t := by
  cases a with
  | insert i rand addr => exact follows_insert hok h hn
  | delete i rand => exact follows_delete hok h hno hn
  | search i => exact follows_search hok h hn

theorem follows_boot (rand : Nat) (addr : Ptr) :
    Follows (boot rand addr) (SearchList.boot rand addr) [(addr, rand % 10)] where
  inserting _ := rfl
  deleting _ := rfl
  searching _ := rfl
  insertLock := rfl
  searchLock := rfl
  list := holds_boot rand addr
  list' := holds_boot rand addr
  memory _ h := h
  insertAt _ := trivial
  deleteAt _ := trivial
  inserted := rfl
  deleted := rfl
  searched := rfl

/-- **The sections are atomic.** Whatever the threads do one pointer at a time, as long as no
node is removed under a `linked_list_size`: the list, the locks and the places of all
threads are as in a run with every section in one step, and the same insertions, deletions
and searches are printed in it, in their order. While no lock is held they are the same to
the letter. -/
theorem hops_refine_threads (s : State) (hs : machine.ReachVia NoSizing s) :
    ∃ t xs, SearchList.machine.Reach t ∧ Follows s t xs ∧
      (s.insertLock = none → insertedPrints s.output = insertedValues t.output ∧
        deletedPrints s.output = deletedValues t.output) ∧
      (s.searchLock = none → searchPrints s.output = t.output.flatMap render) := by
  obtain ⟨t, ht, -, xs, h⟩ : ∃ t, SearchList.machine.Reach t ∧ HopsOk s ∧ ∃ xs, Follows s t xs := by
    refine Machine.ReachVia.simulate (R := fun s t => HopsOk s ∧ ∃ xs, Follows s t xs) ?_ ?_ hs
    · rintro _ ⟨rand, addr, rfl⟩
      exact ⟨_, ⟨rand, addr, rfl⟩, hopsOk_boot rand addr, _, follows_boot rand addr⟩
    · rintro s t a s' - ⟨hok, xs, h⟩ hno hn
      have hok' := hok.next hno hn
      rcases h.next hok hno hn with hsame | ⟨b, t', hb, hmoved⟩
      · exact .inl ⟨hok', hsame⟩
      · exact .inr ⟨b, t', trivial, hb, hok', hmoved⟩
  refine ⟨t, xs, ht, h, fun hfree => ?_, fun hfree => ?_⟩
  · have hinserted := h.inserted
    have hdeleted := h.deleted
    simp only [State.insertDebt, State.deleteDebt, hfree, List.append_nil] at hinserted hdeleted
    exact ⟨hinserted, hdeleted⟩
  · have hsearched := h.searched
    simp only [State.searchRest, State.searchDebt, hfree, List.append_nil] at hsearched
    exact hsearched

instance (p : Tid → Prop) [DecidablePred p] : Decidable (∀ u, p u) :=
  decidable_of_iff ((∀ i, p (.insert i)) ∧ (∀ i, p (.delete i)) ∧ ∀ i, p (.search i))
    ⟨fun ⟨hi, hd, hs⟩ u => match u with
      | .insert i => hi i
      | .delete i => hd i
      | .search i => hs i,
    fun h => ⟨fun _ => h _, fun _ => h _, fun _ => h _⟩⟩

instance (s : State) (a : Label) : Decidable (NoSizing s a) :=
  match a with
  | .delete i _ =>
      inferInstanceAs (Decidable (removes s i = true → ∀ t, t ≠ .delete i → s.sizing t = false))
  | .insert .. | .search _ => inferInstanceAs (Decidable True)

/-- A search that prints 7 while 5, which is announced before it, is linked in before its
line ends; then 7 is deleted. -/
def overlapping : List Label :=
  List.replicate 6 (.insert 0 5 1) ++ List.replicate 3 (.search 0) ++
    List.replicate 4 (.insert 0 5 1) ++ List.replicate 2 (.search 0) ++
    List.replicate 12 (.delete 0 7)

theorem hops_refine_threads_overlapping : ∃ s t, machine.replay (boot 7 0) overlapping = some s ∧
    SearchList.machine.Reach t ∧ insertedValues t.output = [5] ∧ deletedValues t.output = [7] ∧
    t.output.flatMap render = [.searching, .value 7, .newline] := by
  have hrun : (machine.replay (boot 7 0) overlapping).map (fun s =>
      (s.insertLock, s.searchLock, s.output)) = some (none, none,
        [.inserted 5, .searching, .value 7, .newline, .deleted 7]) := by
    decide +kernel
  have hmeet : machine.StepsMeet NoSizing (boot 7 0) overlapping := by
    decide +kernel
  obtain ⟨s, hs, hend⟩ := Option.map_eq_some_iff.mp hrun
  rw [Prod.mk.injEq, Prod.mk.injEq] at hend
  obtain ⟨hinsert, hsearch, hout⟩ := hend
  obtain ⟨t, -, ht, -, hsaid, hsearched⟩ := hops_refine_threads s
    (Machine.ReachVia.replay (.init ⟨7, 0, rfl⟩) hmeet hs)
  obtain ⟨hinserted, hdeleted⟩ := hsaid hinsert
  refine ⟨s, t, hs, ht, ?_⟩
  rw [← hinserted, ← hdeleted, ← hsearched hsearch, hout]
  exact ⟨rfl, rfl, rfl⟩

end OsProjects.SearchList.Hops
