import OsProjects.SearchList.Threads

/-!
# Accounts and limits of the list

Seen as a list of values, the shared list takes three kinds of steps
(`ListStep`): an `insert` appends, unless the list is empty; a `delete` erases
the first match; all other steps leave it alone. From that follow, for whole
runs,

- `balanced_iff` — nothing inserted is lost exactly when no `insert` section
  runs on an empty list, where it compares `head` with the new node in place of
  setting it;
- `limits_iff` — the size stays between 1 and 25 exactly when the sizes checked
  before the locks are still in order when the sections run.

Both conditions fail in some runs, since the checks are made without a lock: two
deleters can pass them on a list of two and empty it (`listEmptied`).
-/

namespace OsProjects.SearchList

open Framework

/-! ## The list of values -/

/-- The list from `head` ends, without passing a freed node. -/
def WellFormed (s : State) : Prop := ∃ xs, s.store.Holds xs

/-- `main` builds a list of one node. -/
theorem holds_boot (rand : Nat) (addr : Ptr) :
    (boot rand addr).store.Holds [(addr, rand % 10)] :=
  ⟨rfl, none, by simp [boot, AList.singleton, AList.lookup], rfl⟩

theorem wellFormed_boot (rand : Nat) (addr : Ptr) : WellFormed (boot rand addr) :=
  ⟨_, holds_boot rand addr⟩

theorem WellFormed.values {s : State} (h : WellFormed s) :
    ∃ vs, values s.store = some vs ∧ linkedListSize s.store = some vs.length ∧
      (s.store.head = none ↔ vs = []) := by
  obtain ⟨xs, hxs⟩ := h
  refine ⟨xs.map Prod.snd, values_spec hxs, ?_, ?_⟩
  · rw [linkedListSize_spec hxs, List.length_map]
  · rw [List.map_eq_nil_iff]
    cases xs with
    | nil => exact iff_of_true hxs rfl
    | cons x xs =>
        refine iff_of_false ?_ nofun
        rw [hxs.1]
        nofun

/-- What a step does to the values `vs` of the list and to the announcements. -/
inductive ListStep (s : State) (vs : List Nat) : Label → State → Prop where
  | insert {i : Fin 3} {rand : Nat} {addr : Ptr} {s' : State} :
      s.inserting i = .locked →
      values s'.store = some (if vs = [] then [] else vs ++ [rand % 10]) →
      insertedValues s'.output = insertedValues s.output ++ [rand % 10] →
      deletedValues s'.output = deletedValues s.output →
      ListStep s vs (.insert i rand addr) s'
  | delete {i : Fin 3} {rand : Nat} {s' : State} :
      s.deleting i = .locked →
      values s'.store = some (vs.erase (rand % 10)) →
      insertedValues s'.output = insertedValues s.output →
      deletedValues s'.output =
        deletedValues s.output ++ (if rand % 10 ∈ vs then [rand % 10] else []) →
      ListStep s vs (.delete i rand) s'
  | other {a : Label} {s' : State} :
      ¬ a.isSection s → values s'.store = some vs →
      insertedValues s'.output = insertedValues s.output →
      deletedValues s'.output = deletedValues s.output → ListStep s vs a s'

/-- **The code's steps are steps on the list of values.** -/
theorem next_listStep {s s' : State} {a : Label} {vs : List Nat} (hwf : WellFormed s)
    (hvs : values s.store = some vs) (hn : next s a = some s') :
    WellFormed s' ∧ ListStep s vs a s' := by
  obtain ⟨xs, hxs⟩ := hwf
  obtain rfl : xs.map Prod.snd = vs := Option.some.inj ((values_spec hxs).symm.trans hvs)
  cases next_cases hn with
  | insert hpc hfresh hsec hout =>
      rename_i i rand addr
      have hins : insertedValues s'.output = insertedValues s.output ++ [rand % 10] := by
        simp [hout, insertedValues]
      have hdel : deletedValues s'.output = deletedValues s.output := by
        simp [hout, deletedValues]
      by_cases hnil : xs = []
      · subst hnil
        obtain ⟨st, hst, hholds⟩ := insertSection_empty hxs rand addr
        obtain rfl := Option.some.inj (hst.symm.trans hsec)
        exact ⟨⟨_, hholds⟩, .insert hpc (values_spec hholds) hins hdel⟩
      · obtain ⟨st, hst, hholds⟩ := insertSection_append hxs hnil rand hfresh
        obtain rfl := Option.some.inj (hst.symm.trans hsec)
        refine ⟨⟨_, hholds⟩, .insert hpc ?_ hins hdel⟩
        rw [values_spec hholds, if_neg (by simpa using hnil), List.map_append]
        rfl
  | delete hpc hsec hstore hout =>
      rename_i i rand r
      obtain ⟨r', hr', hholds, hfound, -⟩ := deleteSection_spec hxs rand (s.prev i)
      obtain rfl := Option.some.inj (hr'.symm.trans hsec)
      rw [← hstore] at hholds
      refine ⟨⟨_, hholds⟩, .delete hpc ?_ ?_ ?_⟩
      · rw [values_spec hholds, map_eraseP]
      · rw [hout]
        cases r'.found <;> simp [insertedValues]
      · rw [hout]
        by_cases hmem : rand % 10 ∈ xs.map Prod.snd
        · rw [if_pos hmem, hfound.mpr hmem]
          simp [deletedValues]
        · rw [if_neg hmem, if_neg fun h => hmem (hfound.mp h)]
          simp
  | other hsec hstore hins hdel =>
      refine ⟨⟨xs, by rw [hstore]; exact hxs⟩, .other hsec ?_ hins hdel⟩
      rw [hstore]
      exact hvs

theorem WellFormed.next {s s' : State} {a : Label} (hwf : WellFormed s)
    (hn : next s a = some s') : WellFormed s' := by
  obtain ⟨vs, hvs, -⟩ := hwf.values
  exact (next_listStep hwf hvs hn).1

/-- **No walk goes wrong**: every thread can always take its next step, given an
unused address where it allocates. -/
theorem next_isSome {s : State} (hwf : WellFormed s) (a : Label)
    (hfresh : ∀ i rand addr, a = .insert i rand addr → s.store.cells.lookup addr = none) :
    (next s a).isSome = true := by
  obtain ⟨xs, hxs⟩ := hwf
  cases a with
  | insert i rand addr =>
      have haddr := hfresh i rand addr rfl
      show (stepInsert s i rand addr).isSome = true
      unfold stepInsert
      cases s.inserting i with
      | check => simp [linkedListSize_spec hxs]
      | lock => cases s.insertLock <;> rfl
      | locked =>
          by_cases hnil : xs = []
          · subst hnil
            obtain ⟨st, hst, -⟩ := insertSection_empty hxs rand addr
            simp [haddr, hst]
          · obtain ⟨st, hst, -⟩ := insertSection_append hxs hnil rand haddr
            simp [haddr, hst]
      | _ => rfl
  | delete i rand =>
      show (stepDelete s i rand).isSome = true
      unfold stepDelete
      cases s.deleting i with
      | check => simp [linkedListSize_spec hxs]
      | lockInsert => cases s.insertLock <;> rfl
      | lockSearch => cases s.searchLock <;> rfl
      | locked =>
          obtain ⟨r, hr, -⟩ := deleteSection_spec hxs rand (s.prev i)
          simp [hr]
      | _ => rfl
  | search i =>
      show (stepSearch s i).isSome = true
      unfold stepSearch
      cases s.searching i with
      | lock => cases s.searchLock <;> rfl
      | locked =>
          cases s.store.head with
          | none => rfl
          | some p => simp [values_spec hxs]
      | _ => rfl

/-! ## No lost insert -/

/-- The first value and the values announced as inserted are those in the list
and those announced as deleted. -/
def Balanced (first : Nat) (s : State) : Prop :=
  ∃ vs, values s.store = some vs ∧
    (first ::ₘ insertedValues s.output : Multiset Nat) = vs + deletedValues s.output

/-- No `insert` section runs on an empty list. -/
def InsertsIntoList (s : State) : Label → Prop
  | .insert i _ _ => s.inserting i = .locked → s.store.head ≠ none
  | _ => True

instance (s : State) (a : Label) : Decidable (InsertsIntoList s a) :=
  match a with
  | .insert _ _ _ => inferInstanceAs (Decidable (_ = _ → s.store.head ≠ none))
  | .delete _ _ => .isTrue trivial
  | .search _ => .isTrue trivial

/-- **One step**, exactly. -/
theorem balanced_step {first : Nat} {s s' : State} {a : Label} (hwf : WellFormed s)
    (hbal : Balanced first s) (hn : next s a = some s') :
    Balanced first s' ↔ InsertsIntoList s a := by
  obtain ⟨vs, hvs, hsum⟩ := hbal
  obtain ⟨vs', hvs', -, hhead⟩ := hwf.values
  obtain rfl : vs' = vs := Option.some.inj (hvs'.symm.trans hvs)
  unfold Balanced
  cases (next_listStep hwf hvs hn).2 with
  | insert hpc hval hins hdel =>
      rename_i i rand addr
      rw [hval, hins, hdel]
      have hcons : (first ::ₘ ↑(insertedValues s.output ++ [rand % 10]) : Multiset Nat) =
          vs' + deletedValues s.output + {rand % 10} := by
        rw [← hsum, ← Multiset.coe_add, Multiset.cons_add]
        rfl
      rw [hcons]
      by_cases hnil : vs' = []
      · -- the value is announced, but not in the list
        refine iff_of_false ?_ fun hok => hok hpc (hhead.mpr hnil)
        rintro ⟨ws, hws, heq⟩
        rw [if_pos hnil] at hws
        obtain rfl := Option.some.inj hws
        have hcard := congrArg Multiset.card heq
        simp [hnil] at hcard
      · refine iff_of_true ⟨_, rfl, ?_⟩ fun _ hempty => hnil (hhead.mp hempty)
        rw [if_neg hnil, ← Multiset.coe_add, add_right_comm]
        rfl
  | delete hpc hval hins hdel =>
      rename_i i rand
      refine iff_of_true ⟨_, hval, ?_⟩ trivial
      rw [hins, hdel, hsum]
      by_cases hmem : rand % 10 ∈ vs'
      · have hsplit : (vs' : Multiset Nat) = ↑(vs'.erase (rand % 10)) + {rand % 10} := by
          rw [← Multiset.coe_erase, add_comm, Multiset.singleton_add,
            Multiset.cons_erase (Multiset.mem_coe.mpr hmem)]
        rw [if_pos hmem, ← Multiset.coe_add, hsplit, add_right_comm, ← add_assoc]
        rfl
      · rw [if_neg hmem, List.erase_of_not_mem hmem, List.append_nil]
  | other hsec hval hins hdel =>
      refine iff_of_true ⟨vs', hval, by rw [hins, hdel, hsum]⟩ ?_
      cases a with
      | insert i rand addr => exact fun hpc => absurd hpc hsec
      | _ => trivial

theorem balanced_boot (rand : Nat) (addr : Ptr) : Balanced (rand % 10) (boot rand addr) :=
  ⟨_, values_spec (holds_boot rand addr), rfl⟩

/-- **No insert is lost, exactly in the runs without inserts into an empty
list.** Along a run of any threads the values in the list account for everything
announced if and only if no `insert` section of the run finds `head` to be
`NULL`. -/
theorem balanced_iff (rand : Nat) (addr : Ptr) (run : List Label) (s : State)
    (hrun : machine.replay (boot rand addr) run = some s) :
    machine.Along (Balanced (rand % 10)) (boot rand addr) run ↔
      machine.StepsMeet InsertsIntoList (boot rand addr) run :=
  Machine.along_iff_stepsMeet (fun _ _ _ hwf hn => WellFormed.next hwf hn)
    (fun _ _ _ hwf hbal hn => balanced_step hwf hbal hn) (wellFormed_boot rand addr)
    (balanced_boot rand addr) hrun

/-- An inserter, and then a deleter that removes the first node. -/
def insertThenDelete : List Label :=
  List.replicate 4 (.insert 0 1 1) ++ List.replicate 6 (.delete 0 7)

theorem insertThenDelete_runs : ∃ s, machine.replay (boot 7 0) insertThenDelete = some s := by
  rw [← Option.isSome_iff_exists]
  decide +kernel

theorem balanced_iff_insertThenDelete :
    machine.Along (Balanced 7) (boot 7 0) insertThenDelete := by
  obtain ⟨s, hs⟩ := insertThenDelete_runs
  exact (balanced_iff 7 0 insertThenDelete s hs).mpr (by decide +kernel)

/-- Two deleters pass the size check on a list of two and empty it. -/
def listEmptied : List Label :=
  List.replicate 4 (.insert 0 1 1) ++ [.delete 0 0, .delete 1 1] ++
    List.replicate 5 (.delete 0 0) ++ List.replicate 5 (.delete 1 1)

/-- **A lost insert.** After two deleters have emptied the list, an inserter
announces a value that is not in it. -/
theorem insert_lost : ∃ s, machine.Reach s ∧
    machine.replay (boot 0 0) (listEmptied ++ List.replicate 3 (.insert 1 5 5)) = some s ∧
    values s.store = some [] ∧ insertedValues s.output = [1, 5] ∧
    deletedValues s.output = [0, 1] ∧ ¬ Balanced 0 s := by
  have hrun : (machine.replay (boot 0 0) (listEmptied ++ List.replicate 3 (.insert 1 5 5))).map
      (fun s => (values s.store, insertedValues s.output, deletedValues s.output)) =
        some (some [], [1, 5], [0, 1]) := by
    decide +kernel
  obtain ⟨s, hs, hend⟩ := Option.map_eq_some_iff.mp hrun
  obtain ⟨hvs, hrest⟩ := Prod.mk.inj hend
  obtain ⟨hins, hdel⟩ := Prod.mk.inj hrest
  refine ⟨s, Machine.Reach.replay (.init ⟨0, 0, rfl⟩) hs, hs, hvs, hins, hdel, ?_⟩
  rintro ⟨ws, hws, hsum⟩
  obtain rfl := Option.some.inj (hvs.symm.trans hws)
  rw [hins, hdel] at hsum
  have hcard := congrArg Multiset.card hsum
  cases hcard

/-! ## Size limits -/

/-- At least one node and at most 25. -/
def InLimits (s : State) : Prop := ∃ n, linkedListSize s.store = some n ∧ 1 ≤ n ∧ n ≤ 25

/-- What was checked before the lock is still so when the section runs: fewer
than 25 nodes for an `insert`; for a `delete` more than one, or no node with the
value drawn. -/
def ChecksHold (s : State) : Label → Prop
  | .insert i _ _ => s.inserting i = .locked → ∀ n ∈ linkedListSize s.store, n < 25
  | .delete i rand => s.deleting i = .locked → ∀ vs ∈ values s.store,
      rand % 10 ∈ vs → 1 < vs.length
  | .search _ => True

instance (s : State) (a : Label) : Decidable (ChecksHold s a) :=
  match a with
  | .insert _ _ _ => inferInstanceAs (Decidable (_ = _ → ∀ n ∈ linkedListSize s.store, n < 25))
  | .delete _ rand => inferInstanceAs (Decidable (_ = _ → ∀ vs ∈ values s.store,
      rand % 10 ∈ vs → 1 < vs.length))
  | .search _ => .isTrue trivial

/-- **One step**, exactly. -/
theorem limits_step {s s' : State} {a : Label} (hwf : WellFormed s) (hlim : InLimits s)
    (hn : next s a = some s') : InLimits s' ↔ ChecksHold s a := by
  obtain ⟨vs, hvs, hsize, -⟩ := hwf.values
  obtain ⟨n, hn', hlow, hhigh⟩ := hlim
  obtain rfl : vs.length = n := Option.some.inj (hsize.symm.trans hn')
  obtain ⟨hwf', hstep⟩ := next_listStep hwf hvs hn
  obtain ⟨vs', hvs', hsize', -⟩ := hwf'.values
  have hlen : InLimits s' ↔ 1 ≤ vs'.length ∧ vs'.length ≤ 25 := by
    constructor
    · rintro ⟨m, hm, h⟩
      obtain rfl := Option.some.inj (hsize'.symm.trans hm)
      exact h
    · exact fun h => ⟨_, hsize', h⟩
  rw [hlen]
  cases hstep with
  | insert hpc hval _ _ =>
      obtain rfl := Option.some.inj (hvs'.symm.trans hval)
      have hne : vs ≠ [] := List.ne_nil_of_length_pos hlow
      rw [if_neg hne, List.length_append, List.length_singleton]
      constructor
      · rintro ⟨-, h⟩ _ m hm
        obtain rfl := Option.some.inj (hsize.symm.trans hm)
        omega
      · intro h
        have := h hpc _ hsize
        omega
  | delete hpc hval hins hdel =>
      rename_i i rand
      obtain rfl := Option.some.inj (hvs'.symm.trans hval)
      by_cases hmem : rand % 10 ∈ vs
      · rw [List.length_erase_of_mem hmem]
        constructor
        · rintro ⟨h, -⟩ _ ws hws _
          obtain rfl := Option.some.inj (hvs.symm.trans hws)
          omega
        · intro h
          have := h hpc vs hvs hmem
          omega
      · rw [List.erase_of_not_mem hmem]
        refine iff_of_true ⟨hlow, hhigh⟩ fun _ ws hws h => ?_
        obtain rfl := Option.some.inj (hvs.symm.trans hws)
        exact absurd h hmem
  | other hsec hval _ _ =>
      obtain rfl := Option.some.inj (hvs'.symm.trans hval)
      refine iff_of_true ⟨hlow, hhigh⟩ ?_
      cases a with
      | insert i rand addr => exact fun hpc => absurd hpc hsec
      | delete i rand => exact fun hpc => absurd hpc hsec
      | search i => trivial

theorem inLimits_boot (rand : Nat) (addr : Ptr) : InLimits (boot rand addr) :=
  ⟨1, linkedListSize_spec (holds_boot rand addr), by decide, by decide⟩

/-- **The limits hold, exactly in the runs whose checks hold.** Along a run of
any threads the list has between 1 and 25 nodes if and only if, whenever a
locked section runs, the check made before the lock still holds. -/
theorem limits_iff (rand : Nat) (addr : Ptr) (run : List Label) (s : State)
    (hrun : machine.replay (boot rand addr) run = some s) :
    machine.Along InLimits (boot rand addr) run ↔
      machine.StepsMeet ChecksHold (boot rand addr) run :=
  Machine.along_iff_stepsMeet (fun _ _ _ hwf hn => WellFormed.next hwf hn)
    (fun _ _ _ hwf hlim hn => limits_step hwf hlim hn) (wellFormed_boot rand addr)
    (inLimits_boot rand addr) hrun

theorem limits_iff_insertThenDelete :
    machine.Along InLimits (boot 7 0) insertThenDelete := by
  obtain ⟨s, hs⟩ := insertThenDelete_runs
  exact (limits_iff 7 0 insertThenDelete s hs).mpr (by decide +kernel)

/-- **An empty list**, after two checks that were right when they were made. -/
theorem list_emptied : ∃ s, machine.Reach s ∧
    machine.replay (boot 0 0) listEmptied = some s ∧ linkedListSize s.store = some 0 ∧
    ¬ InLimits s := by
  have hrun : (machine.replay (boot 0 0) listEmptied).map
      (fun s => linkedListSize s.store) = some (some 0) := by
    decide +kernel
  obtain ⟨s, hs, hsize⟩ := Option.map_eq_some_iff.mp hrun
  refine ⟨s, Machine.Reach.replay (.init ⟨0, 0, rfl⟩) hs, hs, hsize, ?_⟩
  rintro ⟨n, hn, hlow, -⟩
  obtain rfl := Option.some.inj (hsize.symm.trans hn)
  cases hlow

end OsProjects.SearchList
