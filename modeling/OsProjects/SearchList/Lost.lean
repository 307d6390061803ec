import OsProjects.Framework.Potential
import OsProjects.SearchList.Locks

/-!
# Lost nodes

What `head == insert_list` and the `continue` of `search` come to in the long run.

- `nodes_accounted` — memory holds the nodes of the list, and one node for every insert into
  an empty list, which nobody can reach any more. Nothing else leaks.
- `silent_after_empty` — "List is empty" is the last that is heard of the list. After it only
  inserts are announced, and every one of them is lost.
-/

namespace OsProjects.SearchList

open Framework

/-! ## Nodes in memory -/

def Store.nodes (st : Store) : Nat := st.cells.keys.length

theorem Store.write_nodes {st st' : Store} {q : Option Ptr} {l : Link}
    (h : st.write q l = some st') : st'.nodes = st.nodes := by
  cases l with
  | head =>
      obtain rfl := Option.some.inj h
      rfl
  | next p =>
      simp only [Store.write] at h
      split at h
      · cases h
      · rename_i n hp
        obtain rfl := Option.some.inj h
        exact Cells.length_insert_old hp

/-- `malloc` makes one node. -/
theorem insertSection_nodes {st st' : Store} {rand : Nat} {addr : Ptr}
    (hfresh : st.cells.lookup addr = none) (h : insertSection st rand addr = some st') :
    st'.nodes = st.nodes + 1 := by
  have hnew : (st.newNode addr (rand % 10)).nodes = st.nodes + 1 := Cells.length_insert_new hfresh
  simp only [insertSection] at h
  split at h
  · obtain rfl := Option.some.inj h
    exact hnew
  · split at h
    · cases h
    · rw [Store.write_nodes h]
      exact hnew

/-- The node is still there after a write to another one. -/
theorem Store.write_mem {st st' : Store} {q : Option Ptr} {l : Link} {p : Ptr}
    (h : st.write q l = some st') (hp : p ∈ st.cells.keys) : p ∈ st'.cells.keys := by
  cases l with
  | head =>
      obtain rfl := Option.some.inj h
      exact hp
  | next p' =>
      simp only [Store.write] at h
      split at h
      · cases h
      · obtain rfl := Option.some.inj h
        exact (AList.mem_insert _).mpr (Or.inr hp)

/-- `free` takes one, if the value is found. -/
theorem deleteLoop_nodes {st : Store} {v : Nat} {fuel : Nat} {d prev : Option Ptr} {r : Deletion}
    (h : deleteLoop st v fuel d prev = some r) :
    r.store.nodes + (if r.found then 1 else 0) = st.nodes := by
  induction fuel generalizing d prev with
  | zero => cases h
  | succ fuel ih =>
      cases d with
      | none =>
          obtain rfl := Option.some.inj h
          rfl
      | some d =>
          simp only [deleteLoop] at h
          split at h
          · cases h
          · rename_i n hd
            have hmem : d ∈ st.cells.keys := AList.lookup_isSome.mp (by rw [hd]; rfl)
            split at h
            · split at h
              · obtain rfl := Option.some.inj h
                exact Cells.length_erase_add hmem
              · split at h
                · cases h
                · split at h
                  · cases h
                  · rename_i q st' hw
                    obtain rfl := Option.some.inj h
                    rw [← Store.write_nodes hw]
                    exact Cells.length_erase_add (Store.write_mem hw hmem)
            · exact ih h

/-! ## Orphans -/

/-- The step inserts into an empty list: its node is lost. -/
def orphaned (s : State) : Label → Nat
  | .insert i _ _ => if s.inserting i = .locked ∧ s.store.head = none then 1 else 0
  | .delete _ _ => 0
  | .search _ => 0

def orphans (s : State) (as : List Label) : Nat := machine.total orphaned s as

theorem holds_nil_iff {st : Store} {xs : List (Ptr × Nat)} (h : st.Holds xs) :
    st.head = none ↔ xs = [] := by
  cases xs with
  | nil => exact iff_of_true h rfl
  | cons x xs =>
      refine iff_of_false ?_ (List.cons_ne_nil x xs)
      rw [h.1]
      exact Option.some_ne_none _

/-- The step lemma: a node is added to the list or orphaned, or taken from the list. -/
theorem nodes_next {s s' : State} {a : Label} {xs : List (Ptr × Nat)} (hxs : s.store.Holds xs)
    (hn : next s a = some s') :
    ∃ ys, s'.store.Holds ys ∧
      s'.store.nodes + xs.length = s.store.nodes + ys.length + orphaned s a := by
  cases next_cases hn with
  | insert hpc hfresh hsec hout =>
      rename_i i rand addr
      have hnodes := insertSection_nodes hfresh hsec
      by_cases hnil : xs = []
      · subst hnil
        obtain ⟨st, hst, hholds⟩ := insertSection_empty hxs rand addr
        obtain rfl := Option.some.inj (hst.symm.trans hsec)
        refine ⟨[], hholds, ?_⟩
        rw [orphaned, if_pos ⟨hpc, (holds_nil_iff hxs).mpr rfl⟩]
        omega
      · obtain ⟨st, hst, hholds⟩ := insertSection_append hxs hnil rand hfresh
        obtain rfl := Option.some.inj (hst.symm.trans hsec)
        refine ⟨_, hholds, ?_⟩
        rw [orphaned, if_neg fun h => hnil ((holds_nil_iff hxs).mp h.2), List.length_append,
          List.length_singleton]
        omega
  | delete hpc hsec hstore hout =>
      rename_i i rand r
      obtain ⟨r', hr', hholds, hfound, -⟩ := deleteSection_spec hxs rand (s.prev i)
      obtain rfl := Option.some.inj (hr'.symm.trans hsec)
      have hnodes := deleteLoop_nodes hsec
      rw [← hstore] at hholds hnodes
      refine ⟨_, hholds, ?_⟩
      rw [orphaned, Nat.add_zero]
      by_cases hmem : rand % 10 ∈ xs.map Prod.snd
      · obtain ⟨x, hx, hval⟩ := List.mem_map.mp hmem
        have hpos := List.length_pos_of_mem hx
        rw [if_pos (hfound.mpr hmem)] at hnodes
        rw [List.length_eraseP_of_mem hx (decide_eq_true hval)]
        omega
      · rw [if_neg fun h => hmem (hfound.mp h)] at hnodes
        rw [List.eraseP_of_forall_not, ← hnodes, Nat.add_zero]
        intro x hx hval
        exact hmem (List.mem_map.mpr ⟨x, hx, of_decide_eq_true hval⟩)
  | other hsec hstore hins hdel =>
      refine ⟨xs, by rw [hstore]; exact hxs, ?_⟩
      have hkept : orphaned s a = 0 := by
        cases a with
        | insert i rand addr => exact if_neg fun h => hsec h.1
        | delete i rand => rfl
        | search i => rfl
      rw [hstore, hkept, Nat.add_zero]

/-- The run lemma. -/
theorem nodes_replay {s s' : State} {as : List Label} {xs : List (Ptr × Nat)}
    (hxs : s.store.Holds xs) (hrun : machine.replay s as = some s') :
    ∃ ys, s'.store.Holds ys ∧
      s'.store.nodes + xs.length = s.store.nodes + ys.length + orphans s as := by
  induction as generalizing s xs with
  | nil =>
      obtain rfl := Option.some.inj hrun
      exact ⟨xs, hxs, rfl⟩
  | cons a as ih =>
      obtain ⟨t, hn, hrest⟩ := Machine.replay_cons hrun
      obtain ⟨ys, hys, hone⟩ := nodes_next hxs hn
      obtain ⟨zs, hzs, hmore⟩ := ih hys hrest
      refine ⟨zs, hzs, ?_⟩
      unfold orphans at hmore ⊢
      rw [Machine.total_cons hn]
      omega

/-- **Nodes in memory.** At any time in any run, memory holds the nodes of the list and one
node for every insert into an empty list so far. -/
theorem nodes_accounted {rand : Nat} {addr : Ptr} {as : List Label} {s : State}
    (hrun : machine.replay (boot rand addr) as = some s) :
    ∃ vs, values s.store = some vs ∧
      s.store.nodes = vs.length + orphans (boot rand addr) as := by
  obtain ⟨ys, hys, hnodes⟩ := nodes_replay (holds_boot rand addr) hrun
  have hone : (boot rand addr).store.nodes = 1 := rfl
  refine ⟨ys.map Prod.snd, values_spec hys, ?_⟩
  rw [hone, List.length_singleton] at hnodes
  rw [List.length_map]
  omega

/-- One node is in memory, and none in the list. -/
theorem nodes_accounted_orphan : ∃ s,
    machine.replay (boot 0 0) (listEmptied ++ List.replicate 3 (.insert 1 5 5)) = some s ∧
    s.store.nodes = 1 ∧ orphans (boot 0 0) (listEmptied ++ List.replicate 3 (.insert 1 5 5)) = 1 ∧
    ∃ vs, values s.store = some vs ∧ s.store.nodes = vs.length +
      orphans (boot 0 0) (listEmptied ++ List.replicate 3 (.insert 1 5 5)) := by
  have hrun : (machine.replay (boot 0 0) (listEmptied ++ List.replicate 3 (.insert 1 5 5))).map
      (fun s => s.store.nodes) = some 1 := by
    decide +kernel
  obtain ⟨s, hs, hone⟩ := Option.map_eq_some_iff.mp hrun
  exact ⟨s, hs, hone, by decide +kernel, nodes_accounted hs⟩

/-! ## Silence -/

/-- What a step prints. -/
inductive Says (s : State) (a : Label) (s' : State) : Prop where
  | nothing : s'.output = s.output → Says s a s'
  | inserted (v : Nat) : s'.output = s.output ++ [.inserted v] → Says s a s'
  | locked (l : Line) : s.inSearch a.tid = true → l ≠ .empty →
      s'.output = s.output ++ [l] → Says s a s'
  | empty : ¬ SearchesList s a → s.store.head = none →
      s'.output = s.output ++ [.empty] → Says s a s'

theorem stepInsert_says {s s' : State} {i : Fin 3} {rand : Nat} {addr : Ptr}
    (h : stepInsert s i rand addr = some s') : Says s (.insert i rand addr) s' := by
  unfold stepInsert at h
  cases hpc : s.inserting i with
  | check =>
      simp only [hpc] at h
      split at h
      · cases h
      · obtain rfl := Option.some.inj h
        exact .nothing rfl
  | lock =>
      simp only [hpc] at h
      split at h
      · obtain rfl := Option.some.inj h
        exact .nothing rfl
      · obtain rfl := Option.some.inj h
        exact .nothing rfl
  | locked =>
      simp only [hpc] at h
      split at h
      · cases h
      · split at h
        · cases h
        · obtain rfl := Option.some.inj h
          exact .inserted _ rfl
  | unlock | sleep =>
      simp only [hpc] at h
      obtain rfl := Option.some.inj h
      exact .nothing rfl

theorem stepDelete_says {s s' : State} {i : Fin 3} {rand : Nat}
    (h : stepDelete s i rand = some s') : Says s (.delete i rand) s' := by
  unfold stepDelete at h
  cases hpc : s.deleting i with
  | check =>
      simp only [hpc] at h
      split at h
      · cases h
      · obtain rfl := Option.some.inj h
        exact .nothing rfl
  | lockInsert | lockSearch =>
      simp only [hpc] at h
      split at h
      · obtain rfl := Option.some.inj h
        exact .nothing rfl
      · obtain rfl := Option.some.inj h
        exact .nothing rfl
  | locked =>
      simp only [hpc] at h
      split at h
      · cases h
      · rename_i r hr
        obtain rfl := Option.some.inj h
        have hin : s.inSearch (.delete i) = true := by
          show (s.deleting i).insideSearch = true
          rw [hpc]
          rfl
        cases hfound : r.found with
        | true => exact .locked (.deleted (rand % 10)) hin Line.noConfusion rfl
        | false => exact .nothing (List.append_nil _)
  | unlockSearch | unlockInsert | sleep =>
      simp only [hpc] at h
      obtain rfl := Option.some.inj h
      exact .nothing rfl

theorem stepSearch_says {s s' : State} {i : Fin 3} (h : stepSearch s i = some s') :
    Says s (.search i) s' := by
  unfold stepSearch at h
  cases hpc : s.searching i with
  | lock =>
      simp only [hpc] at h
      split at h
      · obtain rfl := Option.some.inj h
        exact .nothing rfl
      · obtain rfl := Option.some.inj h
        exact .nothing rfl
  | locked =>
      simp only [hpc] at h
      split at h
      · rename_i hhead
        obtain rfl := Option.some.inj h
        exact .empty (fun hok => hok hpc hhead) hhead rfl
      · split at h
        · cases h
        · obtain rfl := Option.some.inj h
          refine .locked (.searched _) ?_ Line.noConfusion rfl
          show (s.searching i).inside = true
          rw [hpc]
          rfl
  | unlock | sleep =>
      simp only [hpc] at h
      obtain rfl := Option.some.inj h
      exact .nothing rfl

theorem next_says {s s' : State} {a : Label} (hn : next s a = some s') : Says s a s' := by
  cases a with
  | insert i rand addr => exact stepInsert_says hn
  | delete i rand => exact stepDelete_says hn
  | search i => exact stepSearch_says hn

/-- An empty list stays empty. -/
theorem head_next {s s' : State} {a : Label} (hhead : s.store.head = none)
    (hn : next s a = some s') : s'.store.head = none := by
  have hnil : s.store.Holds [] := hhead
  obtain ⟨hwf, hstep⟩ := next_listStep ⟨[], hnil⟩ (values_spec hnil) hn
  obtain ⟨vs, hvs, -, hiff⟩ := hwf.values
  refine hiff.mpr (Option.some.inj (hvs.symm.trans ?_))
  cases hstep with
  | insert _ h _ _ => exact h
  | delete _ h _ _ => exact h
  | other _ h _ _ => exact h

/-- After "List is empty" come only inserts. -/
def MayFollow (l l' : Line) : Prop := l = .empty → ∃ v, l' = .inserted v

/-- And then the list is empty, and `search_lock` never given back. -/
structure Hushed (s : State) : Prop where
  order : s.output.Pairwise MayFollow
  empty : .empty ∈ s.output → s.store.head = none
  lost : .empty ∈ s.output → s.searchView.Lost

theorem Hushed.next {s s' : State} {a : Label} (hex : Exclusive s) (hok : Hushed s)
    (hn : next s a = some s') : Hushed s' := by
  by_cases hsaid : .empty ∈ s.output
  · -- nobody is inside, so only an inserter has anything to say
    have hlost := hok.lost hsaid
    have hhead := head_next (hok.empty hsaid) hn
    have hlost' := (lost_next hlost hn).1
    refine ⟨?_, fun _ => hhead, fun _ => hlost'⟩
    cases next_says hn with
    | nothing hout =>
        rw [hout]
        exact hok.order
    | inserted v hout =>
        rw [hout, List.pairwise_append]
        refine ⟨hok.order, List.pairwise_singleton _ _, fun l _ l' hl' _ => ?_⟩
        exact ⟨v, List.mem_singleton.mp hl'⟩
    | locked l hin _ _ => exact absurd ((hlost.2 a.tid).symm.trans hin) Bool.false_ne_true
    | empty hbad _ _ =>
        have hin := (next_searchView_leaves hbad hn).inside
        exact absurd ((hlost.2 a.tid).symm.trans hin) Bool.false_ne_true
  · have hfirst : ∀ l, (s.output ++ [l]).Pairwise MayFollow := by
      intro l
      rw [List.pairwise_append]
      refine ⟨hok.order, List.pairwise_singleton _ _, fun l' hl' _ _ hempty => ?_⟩
      exact absurd (hempty ▸ hl') hsaid
    have hspoken : ∀ l, l ≠ .empty → s'.output = s.output ++ [l] → Hushed s' := by
      intro l hl hout
      have hnot : .empty ∉ s'.output := by
        rw [hout]
        intro hmem
        rcases List.mem_append.mp hmem with h | h
        · exact hsaid h
        · exact hl (List.mem_singleton.mp h).symm
      exact ⟨by rw [hout]; exact hfirst l, fun h => absurd h hnot, fun h => absurd h hnot⟩
    cases next_says hn with
    | nothing hout =>
        rw [← hout] at hsaid
        exact ⟨by rw [hout]; exact hok.order, fun h => absurd h hsaid, fun h => absurd h hsaid⟩
    | inserted v hout => exact hspoken _ Line.noConfusion hout
    | locked l _ hl hout => exact hspoken l hl hout
    | empty hbad hhead hout =>
        refine ⟨by rw [hout]; exact hfirst _, fun _ => head_next hhead hn, fun _ => ?_⟩
        exact (next_searchView_leaves hbad hn).lost hex.2

theorem reach_hushed {s : State} (hs : machine.Reach s) : Exclusive s ∧ Hushed s := by
  refine @Machine.ReachVia.invariant _ _ _ _ (fun s => Exclusive s ∧ Hushed s) ?_ ?_ s hs
  · rintro s ⟨rand, addr, rfl⟩
    exact ⟨exclusive_boot rand addr, List.Pairwise.nil, fun h => absurd h List.not_mem_nil,
      fun h => absurd h List.not_mem_nil⟩
  · exact fun s a s' hok _ hn => ⟨hok.1.next hn, hok.2.next hok.1 hn⟩

/-- **After "List is empty".** In any run, once that line has been printed: only inserts are
announced after it, the list is empty for good, `search_lock` is held and no `search` or
`delete` section is under way. -/
theorem silent_after_empty {s : State} (hs : machine.Reach s) :
    s.output.Pairwise MayFollow ∧
    (.empty ∈ s.output → values s.store = some [] ∧ s.searchLock ≠ none ∧
      ∀ t, s.inSearch t = false) := by
  have hok := (reach_hushed hs).2
  refine ⟨hok.order, fun hsaid => ⟨?_, hok.lost hsaid⟩⟩
  have hnil : s.store.Holds [] := hok.empty hsaid
  exact values_spec hnil

/-- A searcher finds the emptied list, and then an inserter fails to put a value in. -/
theorem silent_after_empty_insert : ∃ s, machine.Reach s ∧
    s.output = [.inserted 1, .deleted 0, .deleted 1, .empty, .inserted 5] ∧
    s.output.Pairwise MayFollow ∧ values s.store = some [] := by
  have hrun : (machine.replay (boot 0 0) (listEmptied ++ List.replicate 2 (.search 0) ++
      List.replicate 3 (.insert 1 5 5))).map (fun s => s.output) =
      some [.inserted 1, .deleted 0, .deleted 1, .empty, .inserted 5] := by
    decide +kernel
  obtain ⟨s, hs, hout⟩ := Option.map_eq_some_iff.mp hrun
  have hreach : machine.Reach s := Machine.Reach.replay (.init ⟨0, 0, rfl⟩) hs
  obtain ⟨horder, hempty⟩ := silent_after_empty hreach
  exact ⟨s, hreach, hout, horder, (hempty (by rw [hout]; decide)).1⟩

end OsProjects.SearchList
