import OsProjects.SearchList.Exclusion

/-!
# Where the walks stand

While `linked_list_size` is not under way at a deletion, every walk stands on
the list: `ThreadOk` says so for each thread, from its program point, and
`HopsOk` for all of them. One step changes the place of one thread; only four
kinds of steps change the list, and all but the walks of `linked_list_size` and
`search` are kept out by `insert_lock` then (`ThreadOk.frame`).

`deleters_exclude_iff` puts this together with the locks.
-/

namespace OsProjects.SearchList.Hops

open Framework

/-! ## Places -/

section Places

variable (m : Cells Ptr Nat) (xs : List (Ptr × Nat))

/-- `insert` has allocated a node and is looking for the end of the list, or
has found it. -/
def InsertOk : InsertPc → Prop
  | .sizing (some p) _ => p ∈ xs.map Prod.fst
  | .walking a l => (∃ v, m.lookup a = some ⟨none, v⟩) ∧ a ∉ xs.map Prod.fst ∧ xs ≠ [] ∧
      ∀ p, l = .next p → p ∈ xs.map Prod.fst
  | .link a l => (∃ v, m.lookup a = some ⟨none, v⟩) ∧ a ∉ xs.map Prod.fst ∧
      ∃ ys x, xs = ys ++ [x] ∧ l = .next x.1
  | _ => True

/-- `delete` has passed some nodes, `prev` being the last of them, and is at the
next one. -/
def DeleteOk (prev : Option Ptr) : DeletePc → Prop
  | .sizing (some p) _ => p ∈ xs.map Prod.fst
  | .walking _ d => ∃ ys zs, xs = ys ++ zs ∧ Seg m d zs none ∧
      ∀ y, ys.getLast? = some y → prev = some y.1
  | .unlink d => ∃ ys z zs, xs = ys ++ z :: zs ∧ d = z.1 ∧
      ∀ y, ys.getLast? = some y → prev = some y.1
  | .free d => (m.lookup d).isSome = true ∧ d ∉ xs.map Prod.fst
  | _ => True

def SearchOk : SearchPc → Prop
  | .walking (some p) => p ∈ xs.map Prod.fst
  | _ => True

def ThreadOk (s : State) : Tid → Prop
  | .insert i => InsertOk m xs (s.inserting i)
  | .delete i => DeleteOk m xs (s.prev i) (s.deleting i)
  | .search i => SearchOk xs (s.searching i)

end Places

/-- Every walk stands on the list. -/
structure HopsOk (s : State) : Prop where
  exclusive : Exclusive s
  places : ∃ xs, s.store.Holds xs ∧ ∀ t, ThreadOk s.store.cells xs s t

variable {s s' : State} {a : Label} {m m' : Cells Ptr Nat} {xs xs' : List (Ptr × Nat)}
  {u : Tid}

/-- A step moves one thread only. -/
theorem threadOk_other (hn : next s a = some s') (hu : u ≠ a.tid) :
    ThreadOk m xs s' u ↔ ThreadOk m xs s u := by
  cases a with
  | insert i rand addr =>
      obtain ⟨x, hins, hdel, hsea, -, hprev, -⟩ := stepInsert_locks hn
      cases u with
      | insert j =>
          have hj : j ≠ i := fun h => hu (congrArg _ h)
          simp only [ThreadOk, hins, Function.update_of_ne hj]
      | delete j => simp only [ThreadOk, hdel, hprev]
      | search j => simp only [ThreadOk, hsea]
  | delete i rand =>
      obtain ⟨x, hdel, hins, hsea, hprev, -, -⟩ := stepDelete_locks hn
      cases u with
      | insert j => simp only [ThreadOk, hins]
      | delete j =>
          have hj : j ≠ i := fun h => hu (congrArg _ h)
          simp only [ThreadOk, hdel, Function.update_of_ne hj, hprev j hj]
      | search j => simp only [ThreadOk, hsea]
  | search i =>
      obtain ⟨x, hsea, hins, hdel, -, hprev, -, -⟩ := stepSearch_locks hn
      cases u with
      | insert j => simp only [ThreadOk, hins]
      | delete j => simp only [ThreadOk, hdel, hprev]
      | search j =>
          have hj : j ≠ i := fun h => hu (congrArg _ h)
          simp only [ThreadOk, hsea, Function.update_of_ne hj]

/-- Without `insert_lock` a thread only relies on the node it is at being on the
list. -/
theorem threadOk_outside (hout : s.inInsert u = false) :
    ThreadOk m xs s u ↔ ∀ p ∈ s.reads u, p ∈ xs.map Prod.fst := by
  cases u with
  | insert i =>
      change (s.inserting i).inside = false at hout
      simp only [ThreadOk, State.reads]
      cases hpc : s.inserting i with
      | sizing size n => cases size <;> simp [InsertOk]
      | locked | walking a l | link a l | unlock => rw [hpc] at hout; cases hout
      | _ => simp [InsertOk]
  | delete i =>
      change (s.deleting i).insideInsert = false at hout
      simp only [ThreadOk, State.reads]
      cases hpc : s.deleting i with
      | sizing size n => cases size <;> simp [DeleteOk]
      | walking v d | unlink d | free d => rw [hpc] at hout; cases hout
      | _ => simp [DeleteOk]
  | search i =>
      simp only [ThreadOk, State.reads]
      cases hpc : s.searching i with
      | walking p => cases p <;> simp [SearchOk]
      | _ => simp [SearchOk]

/-- So it does not mind a list that grows. -/
theorem ThreadOk.frame (h : ThreadOk m xs s u) (hout : s.inInsert u = false)
    (hsub : ∀ p ∈ xs.map Prod.fst, p ∈ xs'.map Prod.fst) : ThreadOk m' xs' s u := by
  rw [threadOk_outside hout] at h ⊢
  exact fun p hp => hsub p (h p hp)

/-- A thread that is not walking is at no node, and relies on nothing. -/
theorem threadOk_of_idle (hi : s.inInsert u = false) (hs : s.inSearch u = false)
    (hsize : s.sizing u = false) : ThreadOk m xs s u := by
  have hreads : s.reads u = [] := by
    cases u with
    | insert i =>
        change (s.inserting i).inside = false at hi
        simp only [State.sizing, State.reads] at hsize ⊢
        cases hpc : s.inserting i with
        | sizing size n => cases size <;> simp_all
        | walking a l | link a l => rw [hpc] at hi; cases hi
        | _ => rfl
    | delete i =>
        change (s.deleting i).insideInsert = false at hi
        simp only [State.sizing, State.reads] at hsize ⊢
        cases hpc : s.deleting i with
        | sizing size n => cases size <;> simp_all
        | walking v d | unlink d | free d => rw [hpc] at hi; cases hi
        | _ => rfl
    | search i =>
        change (s.searching i).inside = false at hs
        simp only [State.reads]
        cases hpc : s.searching i with
        | walking p => rw [hpc] at hs; cases hs
        | _ => rfl
  rw [threadOk_outside hi, hreads]
  simp

theorem head_mem {st : Store} (h : st.Holds xs) {p : Ptr} (hp : st.head = some p) :
    p ∈ xs.map Prod.fst := by
  cases xs with
  | nil => cases hp.symm.trans h
  | cons x xs =>
      obtain rfl : p = x.1 := Option.some.inj (hp.symm.trans h.1)
      simp

/-- The node `linked_list_size` and `search` go on to is on the list again. -/
theorem next_place {st : Store} (h : st.Holds xs) {p q : Ptr} {node : Node Ptr Nat}
    (hp : p ∈ xs.map Prod.fst) (hlook : st.cells.lookup p = some node)
    (hq : node.next = some q) : q ∈ xs.map Prod.fst := by
  refine Seg.next_mem h hp (v := node.val) ?_
  rw [hlook, ← hq]

/-! ## One step -/

/-- The end of the list, once `insert` has found it. -/
theorem last_of_read {st : Store} (h : st.Holds xs) (hne : xs ≠ []) {l : Link}
    (hon : ∀ p, l = .next p → p ∈ xs.map Prod.fst) (hread : st.read l = some none) :
    ∃ ys x, xs = ys ++ [x] ∧ l = .next x.1 := by
  cases l with
  | head =>
      have hhead : st.head = none := Option.some.inj hread
      rw [Store.Holds, hhead] at h
      exact absurd (seg_none h).1 hne
  | next p =>
      obtain ⟨ys, v, zs, nx, rfl, hlook, hzs⟩ := Seg.split_of_mem h (hon p rfl)
      rw [Store.read, hlook] at hread
      obtain rfl : nx = none := Option.some.inj hread
      exact ⟨ys, (p, v), by rw [(seg_none hzs).1], rfl⟩

/-- A link of the list leads to the list. -/
theorem read_mem {st : Store} (h : st.Holds xs) {l : Link} {q : Ptr}
    (hon : ∀ p, l = .next p → p ∈ xs.map Prod.fst) (hread : st.read l = some (some q)) :
    q ∈ xs.map Prod.fst := by
  cases l with
  | head => exact head_mem h (Option.some.inj hread)
  | next p =>
      obtain ⟨node, hlook, hnext⟩ := Option.map_eq_some_iff.mp hread
      exact next_place h (hon p rfl) hlook hnext

theorem stepInsert_place {i : Fin 3} {rand : Nat} {addr : Ptr} (hh : s.store.Holds xs)
    (hme : InsertOk s.store.cells xs (s.inserting i))
    (h : stepInsert s i rand addr = some s') :
    ∃ xs', s'.store.Holds xs' ∧ InsertOk s'.store.cells xs' (s'.inserting i) ∧
      (s'.store = s.store ∧ xs' = xs ∨
        (s.inserting i).inside = true ∧ ∀ p ∈ xs.map Prod.fst, p ∈ xs'.map Prod.fst) := by
  cases stepInsert_cases h with
  | check _ =>
      refine ⟨xs, hh, ?_, .inl ⟨rfl, rfl⟩⟩
      simp only [State.setInsert, Function.update_self]
      cases hhead : s.store.head with
      | none => trivial
      | some p => exact head_mem hh hhead
  | @hop p n node hpc hlook =>
      rw [hpc] at hme
      refine ⟨xs, hh, ?_, .inl ⟨rfl, rfl⟩⟩
      simp only [State.setInsert, Function.update_self]
      cases hnext : node.next with
      | none => trivial
      | some q => exact next_place hh hme hlook hnext
  | sized _ =>
      refine ⟨xs, hh, ?_, .inl ⟨rfl, rfl⟩⟩
      simp only [State.setInsert, Function.update_self]
      split <;> trivial
  | take _ _ | refused _ | unlock _ | sleep _ =>
      refine ⟨xs, hh, ?_, .inl ⟨rfl, rfl⟩⟩
      simp only [State.setInsert, Function.update_self]
      trivial
  | newNode hpc hfresh hx =>
      have hnew : addr ∉ xs.map Prod.fst := Seg.not_mem_of_fresh hh hfresh
      refine ⟨xs, Seg.insert hh hnew _, ?_, .inr ⟨by rw [hpc]; rfl, fun _ hp => hp⟩⟩
      simp only [State.setInsert, Function.update_self]
      rcases hx with ⟨-, rfl⟩ | ⟨hhead, rfl⟩
      · trivial
      · refine ⟨⟨_, AList.lookup_insert _⟩, hnew, ?_, fun q hq => by cases hq⟩
        rintro rfl
        exact hhead hh
  | walk hpc hread =>
      rw [hpc] at hme
      obtain ⟨hnode, hnew, hne, hon⟩ := hme
      refine ⟨xs, hh, ?_, .inl ⟨rfl, rfl⟩⟩
      simp only [State.setInsert, Function.update_self]
      refine ⟨hnode, hnew, hne, fun r hr => ?_⟩
      cases hr
      exact read_mem hh hon hread
  | last hpc hread =>
      rw [hpc] at hme
      obtain ⟨hnode, hnew, hne, hon⟩ := hme
      refine ⟨xs, hh, ?_, .inl ⟨rfl, rfl⟩⟩
      simp only [State.setInsert, Function.update_self]
      exact ⟨hnode, hnew, last_of_read hh hne hon hread⟩
  | link hpc hwrite =>
      rw [hpc] at hme
      obtain ⟨⟨v, hnode⟩, hnew, ys, x, rfl, rfl⟩ := hme
      obtain ⟨nx, hlook⟩ := hh.lookup x (by simp)
      simp only [Store.write, hlook] at hwrite
      obtain rfl := Option.some.inj hwrite
      refine ⟨_, Seg.linkLast hh hnode hnew, ?_, .inr ⟨by rw [hpc]; rfl, fun p hp => ?_⟩⟩
      · simp only [State.setInsert, Function.update_self]
        trivial
      · rw [List.map_append]
        exact List.mem_append_left _ hp

/-- The node a `delete` is at, with what it has passed and what is to come. -/
theorem walk_at {v : Nat} {d : Ptr} {prev : Option Ptr}
    (h : DeleteOk m xs prev (.walking v (some d))) :
    ∃ ys z zs, xs = ys ++ z :: zs ∧ d = z.1 ∧
      (∀ node, m.lookup d = some node → Seg m node.next zs none) ∧
      ∀ y, ys.getLast? = some y → prev = some y.1 := by
  obtain ⟨ys, zs, rfl, hzs, hprev⟩ := h
  cases zs with
  | nil => cases hzs
  | cons z zs =>
      obtain ⟨hd, nx, hlook, hrest⟩ := hzs
      obtain rfl : d = z.1 := Option.some.inj hd
      refine ⟨ys, z, zs, rfl, rfl, fun node hnode => ?_, hprev⟩
      obtain rfl := Option.some.inj (hlook.symm.trans hnode)
      exact hrest

/-- Unlinking the node at which the walk stands. -/
theorem unlinkNode_spec {st st' : Store} {ys zs : List (Ptr × Nat)} {z : Ptr × Nat}
    {prev : Option Ptr} (hh : st.Holds (ys ++ z :: zs))
    (hprev : ∀ y, ys.getLast? = some y → prev = some y.1)
    (h : unlinkNode st z.1 prev = some st') :
    st'.Holds (ys ++ zs) ∧ (st'.cells.lookup z.1).isSome = true := by
  obtain ⟨r, hys, hz, nx, hlook, hzs⟩ := seg_append.mp hh
  rw [unlinkNode, hlook] at h
  rcases List.eq_nil_or_concat' ys with rfl | ⟨ys, y, rfl⟩
  · have hhead : st.head = some z.1 := hys.trans hz
    simp only [if_pos hhead] at h
    obtain rfl := Option.some.inj h
    exact ⟨hzs, by rw [hlook]; rfl⟩
  · have hdrop := Seg.not_mem_drop hh
    have hhead : st.head ≠ some z.1 := Seg.not_head hh (by simp)
    rw [List.append_assoc] at hh ⊢
    obtain ⟨ny, hy⟩ := hh.lookup y (by simp)
    simp only [if_neg hhead, hprev y (by simp), Store.write, hy] at h
    obtain rfl := Option.some.inj h
    refine ⟨Seg.bypass hh hlook, ?_⟩
    have hne : z.1 ≠ y.1 := by
      intro heq
      exact hdrop (by simp [heq])
    rw [AList.lookup_insert_ne hne, hlook]
    rfl

theorem stepDelete_place {i : Fin 3} {rand : Nat} (hh : s.store.Holds xs)
    (hme : DeleteOk s.store.cells xs (s.prev i) (s.deleting i))
    (h : stepDelete s i rand = some s') :
    ∃ xs', s'.store.Holds xs' ∧ DeleteOk s'.store.cells xs' (s'.prev i) (s'.deleting i) ∧
      (s'.store = s.store ∧ xs' = xs ∨ removes s i = true) := by
  cases stepDelete_cases h with
  | check _ =>
      refine ⟨xs, hh, ?_, .inl ⟨rfl, rfl⟩⟩
      simp only [State.setDelete, Function.update_self]
      cases hhead : s.store.head with
      | none => trivial
      | some p => exact head_mem hh hhead
  | @hop p n node hpc hlook =>
      rw [hpc] at hme
      refine ⟨xs, hh, ?_, .inl ⟨rfl, rfl⟩⟩
      simp only [State.setDelete, Function.update_self]
      cases hnext : node.next with
      | none => trivial
      | some q => exact next_place hh hme hlook hnext
  | sized _ =>
      refine ⟨xs, hh, ?_, .inl ⟨rfl, rfl⟩⟩
      simp only [State.setDelete, Function.update_self]
      split <;> trivial
  | takeInsert _ _ | refusedInsert _ | takeSearch _ _ | refusedSearch _ | notFound _
  | unlockSearch _ | unlockInsert _ | sleep _ =>
      refine ⟨xs, hh, ?_, .inl ⟨rfl, rfl⟩⟩
      simp only [State.setDelete, Function.update_self]
      trivial
  | draw _ =>
      refine ⟨xs, hh, ?_, .inl ⟨rfl, rfl⟩⟩
      simp only [State.setDelete, Function.update_self]
      exact ⟨[], xs, rfl, hh, fun y hy => by cases hy⟩
  | found hpc _ _ =>
      rw [hpc] at hme
      obtain ⟨ys, z, zs, rfl, rfl, -, hprev⟩ := walk_at hme
      refine ⟨_, hh, ?_, .inl ⟨rfl, rfl⟩⟩
      simp only [State.setDelete, Function.update_self]
      exact ⟨ys, z, zs, rfl, rfl, hprev⟩
  | walk hpc hlook _ =>
      rw [hpc] at hme
      obtain ⟨ys, z, zs, rfl, rfl, hrest, -⟩ := walk_at hme
      refine ⟨_, hh, ?_, .inl ⟨rfl, rfl⟩⟩
      simp only [State.setDelete, Function.update_self]
      refine ⟨ys ++ [z], zs, by simp, hrest _ hlook, fun y hy => ?_⟩
      obtain rfl : z = y := by simpa using hy
      rfl
  | unlink hpc hst =>
      rw [hpc] at hme
      obtain ⟨ys, z, zs, rfl, rfl, hprev⟩ := hme
      obtain ⟨hholds, hlook⟩ := unlinkNode_spec hh hprev hst
      refine ⟨ys ++ zs, hholds, ?_, .inr ?_⟩
      · simp only [State.setDelete, Function.update_self]
        exact ⟨hlook, Seg.not_mem_drop hh⟩
      · rw [removes, hpc]
  | free hpc _ =>
      rw [hpc] at hme
      refine ⟨xs, Seg.erase hh hme.2, ?_, .inr ?_⟩
      · simp only [State.setDelete, Function.update_self]
        trivial
      · rw [removes, hpc]

theorem stepSearch_place {i : Fin 3} (hh : s.store.Holds xs)
    (hme : SearchOk xs (s.searching i)) (h : stepSearch s i = some s') :
    SearchOk xs (s'.searching i) := by
  cases stepSearch_cases h with
  | take _ _ | refused _ | empty _ _ | last _ | unlock _ | sleep _ =>
      simp only [State.setSearch, Function.update_self]
      trivial
  | first _ hhead =>
      simp only [State.setSearch, Function.update_self]
      exact head_mem hh hhead
  | @walk p node hpc hlook =>
      rw [hpc] at hme
      simp only [State.setSearch, Function.update_self]
      cases hnext : node.next with
      | none => trivial
      | some q => exact next_place hh hme hlook hnext

/-- The places after a step: that of the thread that moves, and the others' as they
were, on the list as it is now. -/
theorem threadOk_next (hn : next s a = some s') (hme : ThreadOk m xs s' a.tid)
    (hothers : ∀ t, t ≠ a.tid → ThreadOk m xs s t) (t : Tid) : ThreadOk m xs s' t := by
  by_cases ht : t = a.tid
  · exact ht ▸ hme
  · rw [threadOk_other hn ht]
    exact hothers t ht

/-- **Every walk stays on the list** over a step at which no `linked_list_size`
is under way while a node is removed. -/
theorem HopsOk.next (hok : HopsOk s) (hno : NoSizing s a) (hn : next s a = some s') :
    HopsOk s' := by
  obtain ⟨hex, xs, hh, hall⟩ := hok
  refine ⟨hex.next hn, ?_⟩
  cases a with
  | insert i rand addr =>
      obtain ⟨xs', hh', hme, hsame | ⟨hin, hsub⟩⟩ := stepInsert_place hh (hall (.insert i)) hn
      · obtain ⟨hstore, rfl⟩ := hsame
        exact ⟨xs', hh', threadOk_next hn hme fun t _ => hstore ▸ hall t⟩
      · refine ⟨xs', hh', threadOk_next hn hme fun t ht => ?_⟩
        apply (hall t).frame _ hsub
        exact Bool.eq_false_of_not_eq_true fun h => ht (hex.1.unique h hin)
  | delete i rand =>
      obtain ⟨xs', hh', hme, hsame | hrem⟩ := stepDelete_place hh (hall (.delete i)) hn
      · obtain ⟨hstore, rfl⟩ := hsame
        exact ⟨xs', hh', threadOk_next hn hme fun t _ => hstore ▸ hall t⟩
      · obtain ⟨hi, hs⟩ := removes_inside hrem
        refine ⟨xs', hh', threadOk_next hn hme fun t ht => ?_⟩
        apply threadOk_of_idle
        · exact Bool.eq_false_of_not_eq_true fun h => ht (hex.1.unique h hi)
        · exact Bool.eq_false_of_not_eq_true fun h => ht (hex.2.unique h hs)
        · exact hno hrem t ht
  | search i =>
      obtain ⟨-, -, -, -, -, -, hstore, -⟩ := stepSearch_locks hn
      have hme : ThreadOk s'.store.cells xs s' (.search i) :=
        stepSearch_place hh (hall (.search i)) hn
      exact ⟨xs, hstore ▸ hh, threadOk_next hn hme fun t _ => hstore ▸ hall t⟩

/-! ## Whole runs -/

theorem hopsOk_boot (rand : Nat) (addr : Ptr) : HopsOk (boot rand addr) := by
  refine ⟨exclusive_boot rand addr, [(addr, rand % 10)], ?_, ?_⟩
  · exact ⟨rfl, none, by simp [boot, AList.singleton, AList.lookup], rfl⟩
  · rintro (i | i | i) <;> trivial

/-- No thread's next step uses a node that has been freed. -/
def ReadsLive (s : State) : Prop :=
  ∀ t, ∀ p ∈ s.reads t, (s.store.cells.lookup p).isSome = true

/-- The nodes a thread uses next, inside `insert`'s section. -/
theorem InsertOk.reads_live {i : Fin 3} {p : Ptr} (h : InsertOk m xs (s.inserting i))
    (hin : (s.inserting i).inside = true) (hp : p ∈ s.reads (.insert i)) :
    p ∈ xs.map Prod.fst := by
  simp only [State.reads] at hp
  cases hpc : s.inserting i with
  | walking a l =>
      rw [hpc] at h hp
      cases l with
      | head => cases hp
      | next q => exact List.mem_singleton.mp hp ▸ h.2.2.2 q rfl
  | link a l =>
      rw [hpc] at h hp
      obtain ⟨-, -, ys, x, rfl, rfl⟩ := h
      obtain rfl := List.mem_singleton.mp hp
      simp
  | sizing size n => rw [hpc] at hin; cases hin
  | _ => rw [hpc] at hp; cases hp

/-- Inside `delete`'s section the node may be unlinked, but is not freed yet. -/
theorem DeleteOk.reads_live {i : Fin 3} {p : Ptr} (hh : s.store.Holds xs)
    (h : DeleteOk s.store.cells xs (s.prev i) (s.deleting i))
    (hin : (s.deleting i).insideInsert = true) (hp : p ∈ s.reads (.delete i)) :
    p ∈ xs.map Prod.fst ∨ (s.store.cells.lookup p).isSome = true := by
  simp only [State.reads] at hp
  cases hpc : s.deleting i with
  | walking v d =>
      rw [hpc] at h hp
      cases d with
      | none => cases hp
      | some d =>
          obtain ⟨ys, z, zs, rfl, rfl, -⟩ := walk_at h
          obtain rfl := List.mem_singleton.mp hp
          exact .inl (by simp)
  | unlink d =>
      rw [hpc] at h hp
      obtain ⟨ys, z, zs, rfl, rfl, hprev⟩ := h
      left
      simp only at hp
      split at hp
      · obtain rfl := List.mem_singleton.mp hp
        simp
      · rename_i hhead
        rcases List.mem_cons.mp hp with rfl | hp
        · simp
        · rcases List.eq_nil_or_concat' ys with rfl | ⟨ys, y, rfl⟩
          · exact absurd hh.1 hhead
          · rw [hprev y (by simp)] at hp
            obtain rfl := List.mem_singleton.mp hp
            simp
  | free d =>
      rw [hpc] at h hp
      exact .inr (List.mem_singleton.mp hp ▸ h.1)
  | sizing size n => rw [hpc] at hin; cases hin
  | _ => rw [hpc] at hp; cases hp

theorem HopsOk.readsLive (hok : HopsOk s) : ReadsLive s := by
  obtain ⟨-, xs, hh, hall⟩ := hok
  have hlive : ∀ p ∈ xs.map Prod.fst, (s.store.cells.lookup p).isSome = true := by
    intro p hp
    obtain ⟨x, hx, rfl⟩ := List.mem_map.mp hp
    obtain ⟨nx, hlook⟩ := hh.lookup x hx
    rw [hlook]
    rfl
  intro t p hp
  cases hin : s.inInsert t with
  | false => exact hlive p ((threadOk_outside hin).mp (hall t) p hp)
  | true =>
      cases t with
      | insert i => exact hlive p (InsertOk.reads_live (hall (.insert i)) hin hp)
      | delete i =>
          rcases DeleteOk.reads_live hh (hall (.delete i)) hin hp with hon | hfound
          · exact hlive p hon
          · exact hfound
      | search i => cases hin

/-- **Deleters exclude every walk, exactly in the runs in which they exclude
`linked_list_size`.** Along a run of any threads, hop by hop: no node is unlinked
or freed while another thread is in the middle of a walk, and no walk uses a
freed node, if and only if no node is unlinked or freed while another thread is
in the middle of `linked_list_size`. -/
theorem deleters_exclude_iff (rand : Nat) (addr : Ptr) (run : List Label) :
    (machine.StepsMeet Excludes (boot rand addr) run ∧
      machine.Along ReadsLive (boot rand addr) run) ↔
    machine.StepsMeet NoSizing (boot rand addr) run := by
  have hkept : ∀ s a s', Exclusive s → machine.next s a = some s' → Exclusive s' :=
    fun _ _ _ hex hn => hex.next hn
  constructor
  · rintro ⟨h, -⟩
    exact h.imp hkept (fun _ _ hex => (excludes_iff hex).mp) (exclusive_boot rand addr)
  · intro h
    constructor
    · exact h.imp hkept (fun _ _ hex => (excludes_iff hex).mpr) (exclusive_boot rand addr)
    · have hok : machine.Along HopsOk (boot rand addr) run :=
        h.along (fun _ _ _ hok hno hn => hok.next hno hn) (hopsOk_boot rand addr)
      exact hok.imp fun _ => HopsOk.readsLive

/-- An inserter asks for the size and stops at the first node; a deleter then
removes that node. -/
def freedUnderWalk : List Label :=
  List.replicate 9 (.insert 0 1 1) ++ [.insert 1 0 0] ++ List.replicate 9 (.delete 0 0)

/-- **A freed node under `linked_list_size`.** The deleter frees the node at which
another thread's `linked_list_size` stands, and that thread reads it next. -/
theorem freed_under_walk : ∃ s s', machine.Reach s ∧
    machine.replay (boot 0 0) freedUnderWalk = some s ∧
    next s (.delete 0 0) = some s' ∧ s.deleting 0 = .free 0 ∧ s.sizing (.insert 1) = true ∧
    s'.reads (.insert 1) = [0] ∧ s'.store.cells.lookup 0 = none ∧
    ¬ Excludes s (.delete 0 0) ∧ ¬ ReadsLive s' := by
  have hrun : ((machine.replay (boot 0 0) freedUnderWalk).bind fun s =>
      (next s (.delete 0 0)).map fun s' => (s.deleting 0, s.sizing (.insert 1),
        s'.reads (.insert 1), s'.store.cells.lookup 0)) =
      some (.free 0, true, [0], none) := by
    decide +kernel
  obtain ⟨s, hs, hnext⟩ := Option.bind_eq_some_iff.mp hrun
  obtain ⟨s', hs', hend⟩ := Option.map_eq_some_iff.mp hnext
  simp only [Prod.mk.injEq] at hend
  obtain ⟨hpc, hsize, hreads, hfreed⟩ := hend
  refine ⟨s, s', Machine.Reach.replay (.init ⟨0, 0, rfl⟩) hs, hs, hs', hpc, hsize, hreads,
    hfreed, fun hex => ?_, fun hlive => ?_⟩
  · have hrem : removes s 0 = true := by rw [removes, hpc]
    obtain ⟨hno, -⟩ := hex hrem (.insert 1) (by decide)
    exact Bool.false_ne_true (hno.symm.trans hsize)
  · have hp := hlive (.insert 1) 0 (by rw [hreads]; exact List.mem_singleton.mpr rfl)
    rw [hfreed] at hp
    cases hp

end OsProjects.SearchList.Hops
