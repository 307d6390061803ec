import OsProjects.Framework.Mutex
import OsProjects.SearchList.Accounts

/-!
# The locks are given back

Each of `insert_lock` and `search_lock` as a `LockView`: a thread is inside a
lock's section from its successful `pthread_mutex_trylock` to the unlock. Every
step uses the locks as it should but one: `search` on an empty list goes back to
the top of its loop by `continue`, past the unlock.

- `locks_returned_iff` — a thread outside a section never holds its lock exactly
  in the runs in which no `search` section finds the list empty.
- `search_lock_lost` — once that has happened, `search_lock` is never free
  again: no search and no deletion ever takes place.
-/

namespace OsProjects.SearchList

open Framework

/-! ## Sections of the three kinds of threads -/

/-- Who is inside, put together from the program points of the three kinds. -/
def sections (ins del sea : Fin 3 → Bool) : Tid → Bool
  | .insert i => ins i
  | .delete i => del i
  | .search i => sea i

section Sections

variable {α : Type} {lock lock' : Option Tid} {ins del sea : Fin 3 → Bool} {i : Fin 3}
  {f : α → Bool} {pc pc' : Fin 3 → α} {x : α}

theorem step_insert (hpc : pc' = Function.update pc i x)
    (hact : LockView.Act (.insert i) lock lock' (f (pc i)) (f x)) :
    LockView.Step (.insert i) ⟨lock, sections (fun j => f (pc j)) del sea⟩
      ⟨lock', sections (fun j => f (pc' j)) del sea⟩ := by
  subst hpc
  constructor
  · simpa only [sections, Function.update_self] using hact
  · rintro (j | j | j) hj
    · simp only [sections, Function.update_of_ne fun h => hj (congrArg _ h)]
    · rfl
    · rfl

theorem step_delete (hpc : pc' = Function.update pc i x)
    (hact : LockView.Act (.delete i) lock lock' (f (pc i)) (f x)) :
    LockView.Step (.delete i) ⟨lock, sections ins (fun j => f (pc j)) sea⟩
      ⟨lock', sections ins (fun j => f (pc' j)) sea⟩ := by
  subst hpc
  constructor
  · simpa only [sections, Function.update_self] using hact
  · rintro (j | j | j) hj
    · rfl
    · simp only [sections, Function.update_of_ne fun h => hj (congrArg _ h)]
    · rfl

theorem others_search (hpc : pc' = Function.update pc i x) {u : Tid} (hu : u ≠ .search i) :
    sections ins del (fun j => f (pc' j)) u = sections ins del (fun j => f (pc j)) u := by
  subst hpc
  cases u with
  | insert j | delete j => rfl
  | search j => simp only [sections, Function.update_of_ne fun h => hu (congrArg _ h)]

theorem step_search (hpc : pc' = Function.update pc i x)
    (hact : LockView.Act (.search i) lock lock' (f (pc i)) (f x)) :
    LockView.Step (.search i) ⟨lock, sections ins del fun j => f (pc j)⟩
      ⟨lock', sections ins del fun j => f (pc' j)⟩ := by
  refine ⟨?_, fun u hu => others_search hpc hu⟩
  subst hpc
  simpa only [sections, Function.update_self] using hact

theorem leaves_search (hpc : pc' = Function.update pc i x) (hlock : lock' = lock)
    (hin : f (pc i) = true) (hout : f x = false) :
    LockView.Leaves (.search i) ⟨lock, sections ins del fun j => f (pc j)⟩
      ⟨lock', sections ins del fun j => f (pc' j)⟩ := by
  refine ⟨hin, ?_, hlock, fun u hu => others_search hpc hu⟩
  subst hpc
  simpa only [sections, Function.update_self] using hout

end Sections

/-! ## The sections of the two locks -/

/-- Between taking `insert_lock` and giving it back, in `insert`. -/
def InsertPc.inside : InsertPc → Bool
  | .locked | .unlock => true
  | _ => false

def DeletePc.insideInsert : DeletePc → Bool
  | .lockSearch | .locked | .unlockSearch | .unlockInsert => true
  | _ => false

def DeletePc.insideSearch : DeletePc → Bool
  | .locked | .unlockSearch => true
  | _ => false

def SearchPc.inside : SearchPc → Bool
  | .locked | .unlock => true
  | _ => false

/-- `t` is between a successful trylock of `insert_lock` and the unlock. -/
def State.inInsert (s : State) : Tid → Bool :=
  sections (fun i => (s.inserting i).inside) (fun i => (s.deleting i).insideInsert) fun _ => false

/-- `t` is between a successful trylock of `search_lock` and the unlock. -/
def State.inSearch (s : State) : Tid → Bool :=
  sections (fun _ => false) (fun i => (s.deleting i).insideSearch) fun i => (s.searching i).inside

def State.insertView (s : State) : LockView Tid := ⟨s.insertLock, s.inInsert⟩

def State.searchView (s : State) : LockView Tid := ⟨s.searchLock, s.inSearch⟩

/-- The thread a label moves. -/
def Label.tid : Label → Tid
  | .insert i _ _ => .insert i
  | .delete i _ => .delete i
  | .search i => .search i

/-- No `search` section finds the list empty. -/
def SearchesList (s : State) : Label → Prop
  | .search i => s.searching i = .locked → s.store.head ≠ none
  | _ => True

instance (s : State) (a : Label) : Decidable (SearchesList s a) :=
  match a with
  | .insert _ _ _ => .isTrue trivial
  | .delete _ _ => .isTrue trivial
  | .search _ => inferInstanceAs (Decidable (_ = _ → s.store.head ≠ none))

/-! ## What a step does to the locks -/

/-- A step of `insert` at `i`, as far as the locks and the program points go. -/
theorem stepInsert_locks {s s' : State} {i : Fin 3} {rand : Nat} {addr : Ptr}
    (h : stepInsert s i rand addr = some s') :
    ∃ x, s'.inserting = Function.update s.inserting i x ∧ s'.deleting = s.deleting ∧
      s'.searching = s.searching ∧ s'.searchLock = s.searchLock ∧
      LockView.Act (.insert i) s.insertLock s'.insertLock (s.inserting i).inside x.inside := by
  unfold stepInsert at h
  cases hpc : s.inserting i with
  | check =>
      simp only [hpc] at h
      split at h
      · cases h
      · obtain rfl := Option.some.inj h
        refine ⟨_, rfl, rfl, rfl, rfl, ?_⟩
        split <;> exact .keep
  | lock =>
      cases hlock : s.insertLock with
      | none =>
          simp only [hpc, hlock] at h
          obtain rfl := Option.some.inj h
          exact ⟨_, rfl, rfl, rfl, rfl, .take⟩
      | some t =>
          simp only [hpc, hlock] at h
          obtain rfl := Option.some.inj h
          refine ⟨_, rfl, rfl, rfl, rfl, ?_⟩
          rw [← hlock]
          exact .keep
  | locked =>
      simp only [hpc] at h
      split at h
      · cases h
      · split at h
        · cases h
        · obtain rfl := Option.some.inj h
          exact ⟨_, rfl, rfl, rfl, rfl, .keep⟩
  | unlock =>
      simp only [hpc] at h
      obtain rfl := Option.some.inj h
      exact ⟨_, rfl, rfl, rfl, rfl, .give⟩
  | sleep =>
      simp only [hpc] at h
      obtain rfl := Option.some.inj h
      exact ⟨_, rfl, rfl, rfl, rfl, .keep⟩

theorem stepDelete_locks {s s' : State} {i : Fin 3} {rand : Nat}
    (h : stepDelete s i rand = some s') :
    ∃ x, s'.deleting = Function.update s.deleting i x ∧ s'.inserting = s.inserting ∧
      s'.searching = s.searching ∧
      LockView.Act (.delete i) s.insertLock s'.insertLock
        (s.deleting i).insideInsert x.insideInsert ∧
      LockView.Act (.delete i) s.searchLock s'.searchLock
        (s.deleting i).insideSearch x.insideSearch := by
  unfold stepDelete at h
  cases hpc : s.deleting i with
  | check =>
      simp only [hpc] at h
      split at h
      · cases h
      · obtain rfl := Option.some.inj h
        refine ⟨_, rfl, rfl, rfl, ?_⟩
        split <;> exact ⟨.keep, .keep⟩
  | lockInsert =>
      cases hlock : s.insertLock with
      | none =>
          simp only [hpc, hlock] at h
          obtain rfl := Option.some.inj h
          exact ⟨_, rfl, rfl, rfl, .take, .keep⟩
      | some t =>
          simp only [hpc, hlock] at h
          obtain rfl := Option.some.inj h
          refine ⟨_, rfl, rfl, rfl, ?_, .keep⟩
          rw [← hlock]
          exact .keep
  | lockSearch =>
      cases hlock : s.searchLock with
      | none =>
          simp only [hpc, hlock] at h
          obtain rfl := Option.some.inj h
          exact ⟨_, rfl, rfl, rfl, .keep, .take⟩
      | some t =>
          simp only [hpc, hlock] at h
          obtain rfl := Option.some.inj h
          refine ⟨_, rfl, rfl, rfl, .keep, ?_⟩
          rw [← hlock]
          exact .keep
  | locked =>
      simp only [hpc] at h
      split at h
      · cases h
      · obtain rfl := Option.some.inj h
        exact ⟨_, rfl, rfl, rfl, .keep, .keep⟩
  | unlockSearch =>
      simp only [hpc] at h
      obtain rfl := Option.some.inj h
      exact ⟨_, rfl, rfl, rfl, .keep, .give⟩
  | unlockInsert =>
      simp only [hpc] at h
      obtain rfl := Option.some.inj h
      exact ⟨_, rfl, rfl, rfl, .give, .keep⟩
  | sleep =>
      simp only [hpc] at h
      obtain rfl := Option.some.inj h
      exact ⟨_, rfl, rfl, rfl, .keep, .keep⟩

/-- A step of `search`: on an empty list it leaves with the lock. -/
theorem stepSearch_locks {s s' : State} {i : Fin 3} (h : stepSearch s i = some s') :
    ∃ x, s'.searching = Function.update s.searching i x ∧ s'.inserting = s.inserting ∧
      s'.deleting = s.deleting ∧ s'.insertLock = s.insertLock ∧
      if s.searching i = .locked ∧ s.store.head = none then
        x = .lock ∧ s'.searchLock = s.searchLock
      else LockView.Act (.search i) s.searchLock s'.searchLock (s.searching i).inside x.inside := by
  unfold stepSearch at h
  cases hpc : s.searching i with
  | lock =>
      cases hlock : s.searchLock with
      | none =>
          simp only [hpc, hlock] at h
          obtain rfl := Option.some.inj h
          exact ⟨_, rfl, rfl, rfl, rfl, by simpa using .take⟩
      | some t =>
          simp only [hpc, hlock] at h
          obtain rfl := Option.some.inj h
          refine ⟨_, rfl, rfl, rfl, rfl, ?_⟩
          rw [if_neg (by simp), ← hlock]
          exact .keep
  | locked =>
      cases hhead : s.store.head with
      | none =>
          simp only [hpc, hhead] at h
          obtain rfl := Option.some.inj h
          exact ⟨_, rfl, rfl, rfl, rfl, by simp [State.setSearch]⟩
      | some p =>
          simp only [hpc, hhead] at h
          split at h
          · cases h
          · obtain rfl := Option.some.inj h
            exact ⟨_, rfl, rfl, rfl, rfl, by simpa using .keep⟩
  | unlock =>
      simp only [hpc] at h
      obtain rfl := Option.some.inj h
      exact ⟨_, rfl, rfl, rfl, rfl, by simpa using .give⟩
  | sleep =>
      simp only [hpc] at h
      obtain rfl := Option.some.inj h
      exact ⟨_, rfl, rfl, rfl, rfl, by simpa using .keep⟩

/-- Every step uses `insert_lock` as it should. -/
theorem next_insertView {s s' : State} {a : Label} (h : next s a = some s') :
    LockView.Step a.tid s.insertView s'.insertView := by
  unfold State.insertView State.inInsert
  cases a with
  | insert i rand addr =>
      obtain ⟨x, hins, hdel, -, -, hact⟩ := stepInsert_locks h
      rw [hdel]
      exact step_insert hins hact
  | delete i rand =>
      obtain ⟨x, hdel, hins, -, hact, -⟩ := stepDelete_locks h
      rw [hins]
      exact step_delete hdel hact
  | search i =>
      obtain ⟨x, -, hins, hdel, hlock, -⟩ := stepSearch_locks h
      rw [hins, hdel, hlock]
      exact .refl _ _

/-- A step that does not search an empty list uses `search_lock` as it should. -/
theorem next_searchView {s s' : State} {a : Label} (hok : SearchesList s a)
    (h : next s a = some s') : LockView.Step a.tid s.searchView s'.searchView := by
  unfold State.searchView State.inSearch
  cases a with
  | insert i rand addr =>
      obtain ⟨x, -, hdel, hsea, hlock, -⟩ := stepInsert_locks h
      rw [hdel, hsea, hlock]
      exact .refl _ _
  | delete i rand =>
      obtain ⟨x, hdel, -, hsea, -, hact⟩ := stepDelete_locks h
      rw [hsea]
      exact step_delete hdel hact
  | search i =>
      obtain ⟨x, hsea, -, hdel, -, hact⟩ := stepSearch_locks h
      rw [if_neg fun hbad => hok hbad.1 hbad.2] at hact
      rw [hdel]
      exact step_search hsea hact

/-- **Searching an empty list leaves with the lock.** -/
theorem next_searchView_leaves {s s' : State} {a : Label} (hbad : ¬ SearchesList s a)
    (h : next s a = some s') : LockView.Leaves a.tid s.searchView s'.searchView := by
  cases a with
  | insert i rand addr => exact absurd trivial hbad
  | delete i rand => exact absurd trivial hbad
  | search i =>
      obtain ⟨hpc, hhead⟩ : s.searching i = .locked ∧ s.store.head = none := by
        unfold SearchesList at hbad
        push Not at hbad
        exact hbad
      obtain ⟨x, hsea, -, hdel, -, hact⟩ := stepSearch_locks h
      rw [if_pos ⟨hpc, hhead⟩] at hact
      obtain ⟨rfl, hlock⟩ := hact
      unfold State.searchView State.inSearch
      rw [hdel]
      exact leaves_search hsea hlock (by rw [hpc]; rfl) rfl

/-! ## Whole runs -/

/-- In every run, who is inside a section holds its lock. -/
def Exclusive (s : State) : Prop := s.insertView.Exclusive ∧ s.searchView.Exclusive

theorem exclusive_boot (rand : Nat) (addr : Ptr) : Exclusive (boot rand addr) := by
  constructor <;> rintro (i | i | i) h <;> cases h

theorem Exclusive.next {s s' : State} {a : Label} (hex : Exclusive s)
    (hn : next s a = some s') : Exclusive s' := by
  refine ⟨hex.1.step (next_insertView hn), ?_⟩
  by_cases hok : SearchesList s a
  · exact hex.2.step (next_searchView hok hn)
  · exact hex.2.leaves (next_searchView_leaves hok hn)

/-- At the top of its loop or asleep. -/
def State.idle (s : State) : Tid → Prop
  | .insert i => s.inserting i = .check ∨ s.inserting i = .sleep
  | .delete i => s.deleting i = .check ∨ s.deleting i = .sleep
  | .search i => s.searching i = .lock ∨ s.searching i = .sleep

/-- **The locks are given back**: a thread that is not inside a section does not
hold its lock, an idle thread holds none, and `search_lock` is only held while
some `search` or `delete` section is under way that will release it. -/
structure LocksReturned (s : State) : Prop where
  insert : ∀ t, s.inInsert t = false → s.insertLock ≠ some t
  search : ∀ t, s.inSearch t = false → s.searchLock ≠ some t
  idle : ∀ t, s.idle t → s.insertLock ≠ some t ∧ s.searchLock ≠ some t
  released : s.searchLock ≠ none → ∃ t, s.inSearch t = true

theorem idle_outside {s : State} {t : Tid} (h : s.idle t) :
    s.inInsert t = false ∧ s.inSearch t = false := by
  cases t with
  | insert i =>
      refine ⟨?_, rfl⟩
      show (s.inserting i).inside = false
      rcases h with h | h <;> rw [h] <;> rfl
  | delete i =>
      show (s.deleting i).insideInsert = false ∧ (s.deleting i).insideSearch = false
      rcases h with h | h <;> rw [h] <;> exact ⟨rfl, rfl⟩
  | search i =>
      refine ⟨rfl, ?_⟩
      show (s.searching i).inside = false
      rcases h with h | h <;> rw [h] <;> rfl

theorem locksReturned_iff {s : State} :
    LocksReturned s ↔ s.insertView.Returned ∧ s.searchView.Returned := by
  constructor
  · intro h
    constructor
    · intro t ht
      by_contra hout
      exact h.insert t (Bool.eq_false_of_not_eq_true hout) ht
    · intro t ht
      by_contra hout
      exact h.search t (Bool.eq_false_of_not_eq_true hout) ht
  · rintro ⟨hins, hsea⟩
    have hinsert : ∀ t, s.inInsert t = false → s.insertLock ≠ some t :=
      fun t hout hheld => Bool.false_ne_true (hout.symm.trans (hins t hheld))
    have hsearch : ∀ t, s.inSearch t = false → s.searchLock ≠ some t :=
      fun t hout hheld => Bool.false_ne_true (hout.symm.trans (hsea t hheld))
    refine ⟨hinsert, hsearch, fun t ht => ?_, fun hheld => ?_⟩
    · obtain ⟨hi, hs⟩ := idle_outside ht
      exact ⟨hinsert t hi, hsearch t hs⟩
    · obtain ⟨t, ht⟩ := Option.ne_none_iff_exists'.mp hheld
      exact ⟨t, hsea t ht⟩

theorem locksReturned_boot (rand : Nat) (addr : Ptr) : LocksReturned (boot rand addr) := by
  rw [locksReturned_iff]
  constructor <;> intro t h <;> cases h

/-- **One step**, exactly. -/
theorem locksReturned_step {s s' : State} {a : Label} (hex : Exclusive s)
    (hret : LocksReturned s) (hn : next s a = some s') :
    LocksReturned s' ↔ SearchesList s a := by
  rw [locksReturned_iff] at hret ⊢
  by_cases hok : SearchesList s a
  · refine iff_of_true ⟨?_, ?_⟩ hok
    · exact hret.1.step (next_insertView hn)
    · exact hret.2.step (next_searchView hok hn)
  · refine iff_of_false ?_ hok
    rintro ⟨-, hsea⟩
    exact (next_searchView_leaves hok hn).not_returned hex.2 hsea

/-- **The locks are given back, exactly in the runs that search no empty list.**
Along a run of any threads no thread keeps a lock past its section if and only if
no `search` section of the run finds `head` to be `NULL`. -/
theorem locks_returned_iff (rand : Nat) (addr : Ptr) (run : List Label) (s : State)
    (hrun : machine.replay (boot rand addr) run = some s) :
    machine.Along LocksReturned (boot rand addr) run ↔
      machine.StepsMeet SearchesList (boot rand addr) run :=
  Machine.along_iff_stepsMeet (fun _ _ _ hex hn => Exclusive.next hex hn)
    (fun _ _ _ hex hret hn => locksReturned_step hex hret hn) (exclusive_boot rand addr)
    (locksReturned_boot rand addr) hrun

/-- A step cannot free a `search_lock` that is lost. -/
theorem lost_next {s s' : State} {a : Label} (hlost : s.searchView.Lost)
    (hn : next s a = some s') :
    s'.searchView.Lost ∧ s'.searchLock = s.searchLock := by
  by_cases hok : SearchesList s a
  · exact hlost.step (next_searchView hok hn)
  · have hin := (next_searchView_leaves hok hn).inside
    exact absurd ((hlost.2 a.tid).symm.trans hin) Bool.false_ne_true

/-- **`search_lock` is lost for good.** After a `search` section has found the
list empty, whatever runs then: the lock is held by that thread for ever, and no
`search` or `delete` section is entered. -/
theorem search_lock_lost {s t s' : State} {a : Label} {run : List Label}
    (hex : Exclusive s) (hbad : ¬ SearchesList s a) (hn : next s a = some t)
    (hrun : machine.replay t run = some s') :
    s'.searchLock = some a.tid ∧ ∀ u, s'.inSearch u = false := by
  have hleaves := next_searchView_leaves hbad hn
  have hlost : t.searchView.Lost := hleaves.lost hex.2
  have hheld : t.searchLock = some a.tid := by
    rw [← hex.2 a.tid hleaves.inside]
    exact hleaves.holder
  clear hbad hn hleaves
  induction run generalizing t with
  | nil =>
      obtain rfl := Option.some.inj hrun
      exact ⟨hheld, hlost.2⟩
  | cons b run ih =>
      obtain ⟨t', hn, hrun⟩ := Machine.replay_cons hrun
      obtain ⟨hlost', hsame⟩ := lost_next hlost hn
      exact ih hrun hlost' (hsame.trans hheld)

/-- An inserter, a deleter and then a searcher. -/
def threeTurns : List Label := insertThenDelete ++ List.replicate 4 (.search 0)

theorem locks_returned_iff_threeTurns :
    machine.Along LocksReturned (boot 7 0) threeTurns := by
  have hruns : (machine.replay (boot 7 0) threeTurns).isSome = true := by decide +kernel
  obtain ⟨s, hs⟩ := Option.isSome_iff_exists.mp hruns
  exact (locks_returned_iff 7 0 threeTurns s hs).mpr (by decide +kernel)

/-- **A searcher at the top of its loop with the lock**, after the list has been
emptied. -/
theorem search_keeps_lock : ∃ s, machine.Reach s ∧
    machine.replay (boot 0 0) (listEmptied ++ List.replicate 2 (.search 0)) = some s ∧
    s.searchLock = some (.search 0) ∧ s.searching 0 = .lock ∧
    (∀ t, s.inSearch t = false) ∧ ¬ LocksReturned s := by
  have hrun : (machine.replay (boot 0 0) (listEmptied ++ List.replicate 2 (.search 0))).map
      (fun s => (s.searchLock, s.searching 0, List.ofFn fun i => s.inSearch (.delete i),
        List.ofFn fun i => s.inSearch (.search i))) =
      some (some (.search 0), .lock, [false, false, false], [false, false, false]) := by
    decide +kernel
  obtain ⟨s, hs, hend⟩ := Option.map_eq_some_iff.mp hrun
  simp only [Prod.mk.injEq, List.ofFn_succ, List.ofFn_zero, List.cons.injEq] at hend
  obtain ⟨hlock, hpc, ⟨hd0, hd1, hd2, -⟩, hs0, hs1, hs2, -⟩ := hend
  have hout : ∀ t, s.inSearch t = false := by
    rintro (i | i | i)
    · rfl
    · fin_cases i
      exacts [hd0, hd1, hd2]
    · fin_cases i
      exacts [hs0, hs1, hs2]
  refine ⟨s, Machine.Reach.replay (.init ⟨0, 0, rfl⟩) hs, hs, hlock, hpc, hout, fun hret => ?_⟩
  obtain ⟨t, ht⟩ := hret.released (by rw [hlock]; exact Option.some_ne_none _)
  exact Bool.false_ne_true ((hout t).symm.trans ht)

end OsProjects.SearchList
