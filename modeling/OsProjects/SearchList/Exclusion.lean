import OsProjects.SearchList.Hops
import OsProjects.SearchList.Locks

/-!
# Deleters and the walks they exclude

A `delete` that unlinks or frees a node holds both locks, and the walks in
`insert`, `search` and another `delete` hold at least one of them, so none of
these is under way. `linked_list_size` walks without a lock.

- `Exclusive` — who is inside a section holds its lock, at every hop.
- `HopsOk` — where every walk stands on the list, so that its next step uses no
  freed node. It survives a deletion only if no `linked_list_size` is under way.
- `deleters_exclude_iff` — deleters exclude every walk, and no freed node is
  ever used, exactly in the runs in which they exclude `linked_list_size`.
-/

namespace OsProjects.SearchList.Hops

open Framework

/-! ## Sections -/

def InsertPc.inside : InsertPc → Bool
  | .locked | .walking _ _ | .link _ _ | .unlock => true
  | _ => false

def DeletePc.insideInsert : DeletePc → Bool
  | .check | .sizing _ _ | .lockInsert | .sleep => false
  | _ => true

def DeletePc.insideSearch : DeletePc → Bool
  | .locked | .walking _ _ | .unlink _ | .free _ | .unlockSearch => true
  | _ => false

def SearchPc.inside : SearchPc → Bool
  | .locked | .walking _ | .unlock => true
  | _ => false

def State.inInsert (s : State) : Tid → Bool :=
  sections (fun i => (s.inserting i).inside) (fun i => (s.deleting i).insideInsert) fun _ => false

def State.inSearch (s : State) : Tid → Bool :=
  sections (fun _ => false) (fun i => (s.deleting i).insideSearch) fun i => (s.searching i).inside

def State.insertView (s : State) : LockView Tid := ⟨s.insertLock, s.inInsert⟩

def State.searchView (s : State) : LockView Tid := ⟨s.searchLock, s.inSearch⟩

/-- Who is inside a section holds its lock. -/
def Exclusive (s : State) : Prop := s.insertView.Exclusive ∧ s.searchView.Exclusive

/-! ## What a step does to the locks -/

theorem stepInsert_locks {s s' : State} {i : Fin 3} {rand : Nat} {addr : Ptr}
    (h : stepInsert s i rand addr = some s') :
    ∃ x, s'.inserting = Function.update s.inserting i x ∧ s'.deleting = s.deleting ∧
      s'.searching = s.searching ∧ s'.searchLock = s.searchLock ∧ s'.prev = s.prev ∧
      LockView.Act (.insert i) s.insertLock s'.insertLock (s.inserting i).inside x.inside := by
  cases stepInsert_cases h with
  | check hpc | hop hpc _ | refused hpc | walk hpc _ | last hpc _ | link hpc _ | sleep hpc =>
      refine ⟨_, rfl, rfl, rfl, rfl, rfl, ?_⟩
      rw [hpc]
      exact .keep
  | sized hpc =>
      refine ⟨_, rfl, rfl, rfl, rfl, rfl, ?_⟩
      rw [hpc]
      split <;> exact .keep
  | take hpc hlock =>
      refine ⟨_, rfl, rfl, rfl, rfl, rfl, ?_⟩
      rw [hpc, hlock]
      exact .take
  | newNode hpc _ hx =>
      refine ⟨_, rfl, rfl, rfl, rfl, rfl, ?_⟩
      rw [hpc]
      rcases hx with ⟨-, rfl⟩ | ⟨-, rfl⟩ <;> exact .keep
  | unlock hpc =>
      refine ⟨_, rfl, rfl, rfl, rfl, rfl, ?_⟩
      rw [hpc]
      exact .give

theorem stepDelete_locks {s s' : State} {i : Fin 3} {rand : Nat}
    (h : stepDelete s i rand = some s') :
    ∃ x, s'.deleting = Function.update s.deleting i x ∧ s'.inserting = s.inserting ∧
      s'.searching = s.searching ∧ (∀ j, j ≠ i → s'.prev j = s.prev j) ∧
      LockView.Act (.delete i) s.insertLock s'.insertLock
        (s.deleting i).insideInsert x.insideInsert ∧
      LockView.Act (.delete i) s.searchLock s'.searchLock
        (s.deleting i).insideSearch x.insideSearch := by
  cases stepDelete_cases h with
  | check hpc | hop hpc _ | refusedInsert hpc | refusedSearch hpc | draw hpc | notFound hpc
  | found hpc _ _ | unlink hpc _ | free hpc _ | sleep hpc =>
      refine ⟨_, rfl, rfl, rfl, fun _ _ => rfl, ?_⟩
      rw [hpc]
      exact ⟨.keep, .keep⟩
  | walk hpc _ _ =>
      refine ⟨_, rfl, rfl, rfl, fun j hj => Function.update_of_ne hj _ _, ?_⟩
      rw [hpc]
      exact ⟨.keep, .keep⟩
  | sized hpc =>
      refine ⟨_, rfl, rfl, rfl, fun _ _ => rfl, ?_⟩
      rw [hpc]
      split <;> exact ⟨.keep, .keep⟩
  | takeInsert hpc hlock =>
      refine ⟨_, rfl, rfl, rfl, fun _ _ => rfl, ?_⟩
      rw [hpc, hlock]
      exact ⟨.take, .keep⟩
  | takeSearch hpc hlock =>
      refine ⟨_, rfl, rfl, rfl, fun _ _ => rfl, ?_⟩
      rw [hpc, hlock]
      exact ⟨.keep, .take⟩
  | unlockSearch hpc =>
      refine ⟨_, rfl, rfl, rfl, fun _ _ => rfl, ?_⟩
      rw [hpc]
      exact ⟨.keep, .give⟩
  | unlockInsert hpc =>
      refine ⟨_, rfl, rfl, rfl, fun _ _ => rfl, ?_⟩
      rw [hpc]
      exact ⟨.give, .keep⟩

theorem stepSearch_locks {s s' : State} {i : Fin 3} (h : stepSearch s i = some s') :
    ∃ x, s'.searching = Function.update s.searching i x ∧ s'.inserting = s.inserting ∧
      s'.deleting = s.deleting ∧ s'.insertLock = s.insertLock ∧ s'.prev = s.prev ∧
      s'.store = s.store ∧
      (LockView.Act (.search i) s.searchLock s'.searchLock (s.searching i).inside x.inside ∨
        (s.searching i).inside = true ∧ x.inside = false ∧ s'.searchLock = s.searchLock) := by
  cases stepSearch_cases h with
  | refused hpc | first hpc _ | walk hpc _ | last hpc | sleep hpc =>
      refine ⟨_, rfl, rfl, rfl, rfl, rfl, rfl, .inl ?_⟩
      rw [hpc]
      exact .keep
  | take hpc hlock =>
      refine ⟨_, rfl, rfl, rfl, rfl, rfl, rfl, .inl ?_⟩
      rw [hpc, hlock]
      exact .take
  | empty hpc _ =>
      refine ⟨_, rfl, rfl, rfl, rfl, rfl, rfl, .inr ⟨?_, rfl, rfl⟩⟩
      rw [hpc]
      rfl
  | unlock hpc =>
      refine ⟨_, rfl, rfl, rfl, rfl, rfl, rfl, .inl ?_⟩
      rw [hpc]
      exact .give

theorem exclusive_boot (rand : Nat) (addr : Ptr) : Exclusive (boot rand addr) := by
  constructor <;> rintro (i | i | i) h <;> cases h

theorem Exclusive.next {s s' : State} {a : Label} (hex : Exclusive s)
    (hn : next s a = some s') : Exclusive s' := by
  obtain ⟨hi, hs⟩ := hex
  unfold Exclusive State.insertView State.searchView State.inInsert State.inSearch at *
  cases a with
  | insert i rand addr =>
      obtain ⟨x, hins, hdel, hsea, hlock, -, hact⟩ := stepInsert_locks hn
      rw [hdel, hsea, hlock]
      exact ⟨hi.step (step_insert hins hact), hs⟩
  | delete i rand =>
      obtain ⟨x, hdel, hins, hsea, -, hact, hact'⟩ := stepDelete_locks hn
      rw [hins, hsea]
      exact ⟨hi.step (step_delete hdel hact), hs.step (step_delete hdel hact')⟩
  | search i =>
      obtain ⟨x, hsea, hins, hdel, hlock, -, -, hact | ⟨hin, hout, hkeep⟩⟩ := stepSearch_locks hn
      · rw [hins, hdel, hlock]
        exact ⟨hi, hs.step (step_search hsea hact)⟩
      · rw [hins, hdel, hlock]
        exact ⟨hi, hs.leaves (leaves_search hsea hkeep hin hout)⟩

/-! ## Exclusion -/

/-- The deleter of the step is the only thread in the middle of a walk. -/
def Excludes (s : State) : Label → Prop
  | .delete i _ => removes s i = true →
      ∀ t, t ≠ .delete i → s.sizing t = false ∧ s.walking t = false
  | _ => True

/-- No other thread is in the middle of `linked_list_size` when a node is
unlinked or freed. -/
def NoSizing (s : State) : Label → Prop
  | .delete i _ => removes s i = true → ∀ t, t ≠ .delete i → s.sizing t = false
  | _ => True

theorem removes_inside {s : State} {i : Fin 3} (h : removes s i = true) :
    s.inInsert (.delete i) = true ∧ s.inSearch (.delete i) = true := by
  show (s.deleting i).insideInsert = true ∧ (s.deleting i).insideSearch = true
  unfold removes at h
  cases hpc : s.deleting i <;> rw [hpc] at h <;> first | exact ⟨rfl, rfl⟩ | cases h

/-- A walk other than that of `linked_list_size` is inside a section. -/
theorem walking_inside {s : State} {t : Tid} (h : s.walking t = true) :
    s.inInsert t = true ∨ s.inSearch t = true := by
  cases t with
  | insert i =>
      left
      show (s.inserting i).inside = true
      simp only [State.walking] at h
      split at h
      · rw [‹s.inserting i = _›]; rfl
      · rw [‹s.inserting i = _›]; rfl
      · cases h
  | delete i =>
      left
      show (s.deleting i).insideInsert = true
      simp only [State.walking] at h
      split at h
      · rw [‹s.deleting i = _›]; rfl
      · rw [‹s.deleting i = _›]; rfl
      · rw [‹s.deleting i = _›]; rfl
      · cases h
  | search i =>
      right
      show (s.searching i).inside = true
      simp only [State.walking] at h
      split at h
      · rw [‹s.searching i = _›]; rfl
      · cases h

/-- **The locks exclude every walk but that of `linked_list_size`.** -/
theorem excludes_iff {s : State} {a : Label} (hex : Exclusive s) :
    Excludes s a ↔ NoSizing s a := by
  cases a with
  | insert i rand addr => exact Iff.rfl
  | search i => exact Iff.rfl
  | delete i rand =>
      constructor
      · exact fun h hrem t ht => (h hrem t ht).1
      · intro h hrem t ht
        refine ⟨h hrem t ht, ?_⟩
        by_contra hwalk
        obtain ⟨hi, hs⟩ := removes_inside hrem
        rcases walking_inside (Bool.eq_true_of_not_eq_false hwalk) with hin | hin
        · exact ht (hex.1.unique hin hi)
        · exact ht (hex.2.unique hin hs)

end OsProjects.SearchList.Hops
