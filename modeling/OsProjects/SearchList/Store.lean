import OsProjects.Framework.LinkedList

/-!
# The list of the searchers, inserters and deleters

`con3.c`: a global singly linked list. The functions here are the loops of the
source as they walk the nodes, without the locks around them. A loop is given as
much fuel as there are nodes; `none` is a dangling or unassigned pointer. The
`_spec` lemmas say that neither happens on a well-formed list, and what the walk
does to the values: `insert` appends, except to an empty list, where its node is
lost; `delete` removes the first match, frees its node, and does not depend on what
`prev` held before (`delete_first_match`).
-/

namespace OsProjects.SearchList

open Framework

abbrev Ptr := Nat

/-- The nodes and the global `head`. -/
structure Store where
  cells : Cells Ptr Nat
  head : Option Ptr

/-- More than any walk over the nodes can take. -/
def Store.fuel (st : Store) : Nat := st.cells.keys.length + 1

/-! ## The walks -/

/-- `while (size != NULL) { size = size->next; i++; }` -/
def sizeLoop (m : Cells Ptr Nat) : Nat → Option Ptr → Nat → Option Nat
  | 0, _, _ => none
  | _ + 1, none, i => some i
  | fuel + 1, some p, i =>
      match m.lookup p with
      | none => none
      | some n => sizeLoop m fuel n.next (i + 1)

def linkedListSize (st : Store) : Option Nat := sizeLoop st.cells st.fuel st.head 0

/-- Where `end` points: at `head` or at the `next` field of a node. -/
inductive Link where
  | head
  | next (p : Ptr)
deriving DecidableEq, Repr

/-- `*end` -/
def Store.read (st : Store) : Link → Option (Option Ptr)
  | .head => some st.head
  | .next p => (st.cells.lookup p).map Node.next

/-- `*end = q` -/
def Store.write (st : Store) (q : Option Ptr) : Link → Option Store
  | .head => some { st with head := q }
  | .next p =>
      match st.cells.lookup p with
      | none => none
      | some n => some { st with cells := st.cells.insert p { n with next := q } }

/-- `while (*end != NULL) end = &((*end)->next);` -/
def endLoop (st : Store) : Nat → Link → Option Link
  | 0, _ => none
  | fuel + 1, l =>
      match st.read l with
      | none => none
      | some none => some l
      | some (some p) => endLoop st fuel (.next p)

/-- `insert_list->val = v; insert_list->next = NULL;` at a new address. -/
def Store.newNode (st : Store) (addr : Ptr) (v : Nat) : Store :=
  { st with cells := st.cells.insert addr ⟨none, v⟩ }

/-- The locked section of `insert`, `addr` being what `malloc` returns. -/
def insertSection (st : Store) (rand : Nat) (addr : Ptr) : Option Store :=
  let st' := st.newNode addr (rand % 10)
  match st.head with
  | none => some st'   -- `head == insert_list;`
  | some _ =>
      match endLoop st' st'.fuel .head with
      | none => none
      | some l => st'.write (some addr) l

/-- What `delete`'s walk leaves behind: the list, the variable `prev`, and
whether it announced a deletion. -/
structure Deletion where
  store : Store
  prev : Option Ptr
  found : Bool

/-- `while (delete_list != NULL) …`, `prev` being `none` before it is first
assigned. -/
def deleteLoop (st : Store) (v : Nat) : Nat → Option Ptr → Option Ptr → Option Deletion
  | 0, _, _ => none
  | _ + 1, none, prev => some ⟨st, prev, false⟩
  | fuel + 1, some d, prev =>
      match st.cells.lookup d with
      | none => none
      | some n =>
          if n.val = v then
            if st.head = some d then
              some ⟨⟨st.cells.erase d, n.next⟩, prev, true⟩
            else
              match prev with
              | none => none
              | some q =>
                  match st.write n.next (.next q) with
                  | none => none
                  | some st' => some ⟨⟨st'.cells.erase d, st'.head⟩, prev, true⟩
          else deleteLoop st v fuel n.next (some d)

/-- The locked section of `delete`. -/
def deleteSection (st : Store) (rand : Nat) (prev : Option Ptr) : Option Deletion :=
  deleteLoop st (rand % 10) st.fuel st.head prev

/-- `while (search_list != NULL)`: the values printed. -/
def searchLoop (m : Cells Ptr Nat) : Nat → Option Ptr → Option (List Nat)
  | 0, _ => none
  | _ + 1, none => some []
  | fuel + 1, some p =>
      match m.lookup p with
      | none => none
      | some n => (searchLoop m fuel n.next).map (n.val :: ·)

/-- The values reachable from `head`, in order. -/
def values (st : Store) : Option (List Nat) := searchLoop st.cells st.fuel st.head

/-! ## Well-formed lists -/

/-- The list from `head` consists of the nodes `xs`. -/
def Store.Holds (st : Store) (xs : List (Ptr × Nat)) : Prop :=
  Seg st.cells st.head xs none

theorem Store.Holds.lt_fuel {st : Store} {xs : List (Ptr × Nat)} (h : st.Holds xs) :
    xs.length < st.fuel := Nat.lt_succ_of_le h.length_le

theorem sizeLoop_spec {m : Cells Ptr Nat} : ∀ {fuel : Nat} {xs : List (Ptr × Nat)}
    {p : Option Ptr} (i : Nat), Seg m p xs none → xs.length < fuel →
    sizeLoop m fuel p i = some (i + xs.length)
  | 0, _, _, _, _, hf => absurd hf (Nat.not_lt_zero _)
  | fuel + 1, [], p, i, h, _ => by
      rw [show p = none from h]
      rfl
  | fuel + 1, x :: xs, p, i, ⟨hp, nx, hx, hxs⟩, hf => by
      have ih := sizeLoop_spec (i + 1) hxs (Nat.lt_of_succ_lt_succ hf)
      rw [hp, sizeLoop, hx]
      show sizeLoop m fuel nx (i + 1) = some (i + (xs.length + 1))
      rw [ih, Nat.add_assoc, Nat.add_comm 1]

theorem linkedListSize_spec {st : Store} {xs : List (Ptr × Nat)} (h : st.Holds xs) :
    linkedListSize st = some xs.length := by
  rw [linkedListSize, sizeLoop_spec 0 h h.lt_fuel, Nat.zero_add]

theorem searchLoop_spec {m : Cells Ptr Nat} : ∀ {fuel : Nat} {xs : List (Ptr × Nat)}
    {p : Option Ptr}, Seg m p xs none → xs.length < fuel →
    searchLoop m fuel p = some (xs.map Prod.snd)
  | 0, _, _, _, hf => absurd hf (Nat.not_lt_zero _)
  | fuel + 1, [], p, h, _ => by
      rw [show p = none from h]
      rfl
  | fuel + 1, x :: xs, p, ⟨hp, nx, hx, hxs⟩, hf => by
      have ih := searchLoop_spec hxs (Nat.lt_of_succ_lt_succ hf)
      rw [hp, searchLoop, hx]
      show (searchLoop m fuel nx).map (x.2 :: ·) = some (x.2 :: xs.map Prod.snd)
      rw [ih]
      rfl

theorem values_spec {st : Store} {xs : List (Ptr × Nat)} (h : st.Holds xs) :
    values st = some (xs.map Prod.snd) :=
  searchLoop_spec h h.lt_fuel

/-! ## Insertion -/

/-- The walk stops at the `next` field of the last node. -/
theorem endLoop_spec {st : Store} {x : Ptr × Nat} : ∀ {fuel : Nat}
    {xs : List (Ptr × Nat)} {p : Option Ptr} {l : Link}, st.read l = some p →
    Seg st.cells p (xs ++ [x]) none → xs.length + 1 < fuel →
    endLoop st fuel l = some (.next x.1)
  | 0, _, _, _, _, _, hf => absurd hf (Nat.not_lt_zero _)
  | fuel + 1, [], p, l, hl, ⟨hp, nx, hx, hend⟩, hf => by
      have hlast : st.read (.next x.1) = some none := by
        rw [Store.read, hx, show nx = none from hend]
        rfl
      obtain ⟨f, rfl⟩ : ∃ f, fuel = f + 1 := Nat.exists_eq_add_of_lt (Nat.lt_of_succ_lt_succ hf)
        |>.imp fun _ h => by simpa using h
      rw [endLoop, hl, hp]
      simp only
      rw [endLoop, hlast]
  | fuel + 1, y :: ys, p, l, hl, ⟨hp, nx, hy, hys⟩, hf => by
      have hread : st.read (.next y.1) = some nx := by
        rw [Store.read, hy]
        rfl
      rw [endLoop, hl, hp]
      exact endLoop_spec hread hys (Nat.lt_of_succ_lt_succ hf)

/-- **`insert` on an empty list loses the node**: `head` is compared, not set. -/
theorem insertSection_empty {st : Store} (h : st.Holds []) (rand : Nat) (addr : Ptr) :
    ∃ st', insertSection st rand addr = some st' ∧ st'.Holds [] := by
  have hhead : st.head = none := h
  refine ⟨st.newNode addr (rand % 10), ?_, hhead⟩
  rw [insertSection, hhead]

theorem insertSection_cons {st : Store} {q : Ptr} (hq : st.head = some q) {rand : Nat}
    {addr : Ptr} {l : Link}
    (hend : endLoop (st.newNode addr (rand % 10)) (st.newNode addr (rand % 10)).fuel .head =
      some l) :
    insertSection st rand addr = (st.newNode addr (rand % 10)).write (some addr) l := by
  rw [insertSection]
  simp only [hq, hend]

/-- **`insert` appends** to any other list. -/
theorem insertSection_append {st : Store} {xs : List (Ptr × Nat)} (h : st.Holds xs)
    (hne : xs ≠ []) (rand : Nat) {addr : Ptr} (hfresh : st.cells.lookup addr = none) :
    ∃ st', insertSection st rand addr = some st' ∧
      st'.Holds (xs ++ [(addr, rand % 10)]) := by
  obtain ⟨ys, x, rfl⟩ := (List.eq_nil_or_concat' xs).resolve_left hne
  have hnew : addr ∉ (ys ++ [x]).map Prod.fst := by
    intro hmem
    obtain ⟨y, hy, rfl⟩ := List.mem_map.mp hmem
    obtain ⟨nx, hlook⟩ := h.lookup y hy
    rw [hfresh] at hlook
    cases hlook
  have h' : (st.newNode addr (rand % 10)).Holds (ys ++ [x]) := Seg.insert h hnew _
  have hlen := h'.lt_fuel
  rw [List.length_append] at hlen
  obtain ⟨q, hq⟩ : ∃ q, st.head = some q := by
    cases hhead : st.head with
    | some q => exact ⟨q, rfl⟩
    | none =>
        rw [Store.Holds, hhead] at h
        exact absurd (seg_none h).1 hne
  obtain ⟨nx, hx⟩ := h'.lookup x (by simp)
  refine ⟨⟨_, st.head⟩, ?_, Seg.linkEnd h hfresh⟩
  rw [insertSection_cons hq (endLoop_spec rfl h' hlen), Store.write, hx]
  rfl

/-! ## Deletion -/

/-- Memory has lost the node `gone`, and nothing else. -/
def Frees (st st' : Store) (gone : Option (Ptr × Nat)) : Prop :=
  ∀ a, st'.cells.lookup a = none ↔ st.cells.lookup a = none ∨ ∃ z, gone = some z ∧ z.1 = a

theorem frees_none (st : Store) : Frees st st none := by
  intro a
  simp

/-- `free(z)`, after any writes to nodes that are there. -/
theorem frees_erase {st : Store} {m : Cells Ptr Nat} (hd : Option Ptr) (z : Ptr × Nat)
    (hm : ∀ a, m.lookup a = none ↔ st.cells.lookup a = none) :
    Frees st ⟨m.erase z.1, hd⟩ (some z) := by
  intro a
  by_cases ha : a = z.1
  · subst ha
    exact iff_of_true (AList.lookup_erase _ _) (Or.inr ⟨z, rfl, rfl⟩)
  · show (m.erase z.1).lookup a = none ↔ _
    rw [AList.lookup_erase_ne ha, hm]
    refine ⟨Or.inl, fun h => h.resolve_right ?_⟩
    rintro ⟨x, hx, rfl⟩
    cases hx
    exact ha rfl

/-- The match is the first node: `head = delete_list->next`. -/
theorem delete_head {st : Store} {z : Ptr × Nat} {zs : List (Ptr × Nat)} {nx : Option Ptr}
    (h : st.Holds (z :: zs)) (hz : st.cells.lookup z.1 = some ⟨nx, z.2⟩) (fuel : Nat)
    (prev : Option Ptr) :
    ∃ r, deleteLoop st z.2 (fuel + 1) (some z.1) prev = some r ∧ r.store.Holds zs ∧
      r.found = true ∧ Frees st r.store (some z) := by
  refine ⟨⟨⟨st.cells.erase z.1, nx⟩, prev, true⟩, ?_, Seg.unlinkHead h hz, rfl,
    frees_erase nx z fun _ => Iff.rfl⟩
  rw [deleteLoop, hz]
  show (if z.2 = z.2 then if st.head = some z.1 then _ else _ else _) = _
  rw [if_pos rfl, if_pos h.1]

/-- The match is behind `prev`: `prev->next = delete_list->next`. -/
theorem delete_behind {st : Store} {y z : Ptr × Nat} {ys zs : List (Ptr × Nat)}
    {nx : Option Ptr} (h : st.Holds (ys ++ y :: z :: zs))
    (hz : st.cells.lookup z.1 = some ⟨nx, z.2⟩) (fuel : Nat) :
    ∃ r, deleteLoop st z.2 (fuel + 1) (some z.1) (some y.1) = some r ∧
      r.store.Holds (ys ++ y :: zs) ∧ r.found = true ∧ Frees st r.store (some z) := by
  have hhead : st.head ≠ some z.1 := by
    rw [show ys ++ y :: z :: zs = (ys ++ [y]) ++ z :: zs by simp] at h
    exact Seg.not_head h (by simp)
  obtain ⟨ny, hy⟩ := h.lookup y (by simp)
  have hunlinked := Seg.unlink h hz
  have hwritten : ∀ a, (st.cells.insert y.1 ⟨nx, y.2⟩).lookup a = none ↔
      st.cells.lookup a = none := by
    intro a
    by_cases ha : a = y.1
    · rw [ha, AList.lookup_insert, hy]
      exact iff_of_false nofun nofun
    · rw [AList.lookup_insert_ne ha]
  refine ⟨⟨⟨_, st.head⟩, some y.1, true⟩, ?_, hunlinked, rfl, frees_erase _ z hwritten⟩
  rw [deleteLoop, hz]
  show (if z.2 = z.2 then if st.head = some z.1 then _ else _ else _) = _
  rw [if_pos rfl, if_neg hhead]
  simp only [Store.write, hy]
  rfl

/-- **`delete` removes the first match.** The walk has passed the nodes `ys`,
none of which matches, `prev` being the last of them, and `zs` are ahead. -/
theorem deleteLoop_spec {st : Store} {v : Nat} : ∀ {fuel : Nat}
    {zs ys : List (Ptr × Nat)} {p prev : Option Ptr}, st.Holds (ys ++ zs) →
    Seg st.cells p zs none → (∀ y, ys.getLast? = some y → prev = some y.1) →
    zs.length < fuel →
    ∃ r, deleteLoop st v fuel p prev = some r ∧
      r.store.Holds (ys ++ zs.eraseP fun x => x.2 = v) ∧
      (r.found = true ↔ v ∈ zs.map Prod.snd) ∧ Frees st r.store (zs.find? fun x => x.2 = v)
  | 0, _, _, _, _, _, _, _, hf => absurd hf (Nat.not_lt_zero _)
  | fuel + 1, [], ys, p, prev, h, hp, _, _ => by
      rw [show p = none from hp]
      exact ⟨⟨st, prev, false⟩, rfl, h, by simp, frees_none st⟩
  | fuel + 1, z :: zs, ys, p, prev, h, ⟨hp, nx, hz, hzs⟩, hprev, hf => by
      rw [hp]
      by_cases hv : z.2 = v
      · subst hv
        rw [show (z :: zs).eraseP (fun x => x.2 = z.2) = zs by simp,
          show (z :: zs).find? (fun x => x.2 = z.2) = some z by simp]
        have hmem : z.2 ∈ (z :: zs).map Prod.snd := by simp
        rcases List.eq_nil_or_concat' ys with rfl | ⟨ys, y, rfl⟩
        · obtain ⟨r, hr, hholds, hfound, hfrees⟩ := delete_head h hz fuel prev
          exact ⟨r, hr, hholds, iff_of_true hfound hmem, hfrees⟩
        · rw [List.append_assoc] at h
          rw [hprev y (by simp), List.append_assoc]
          obtain ⟨r, hr, hholds, hfound, hfrees⟩ := delete_behind h hz fuel
          exact ⟨r, hr, hholds, iff_of_true hfound hmem, hfrees⟩
      · have hnext := @deleteLoop_spec st v fuel zs (ys ++ [z]) nx (some z.1)
          (by rw [List.append_assoc]; exact h) hzs (by simp) (Nat.lt_of_succ_lt_succ hf)
        obtain ⟨r, hr, hholds, hfound, hfrees⟩ := hnext
        rw [List.append_assoc] at hholds
        refine ⟨r, ?_, ?_, ?_, ?_⟩
        · rw [deleteLoop, hz]
          show (if z.2 = v then _ else deleteLoop st v fuel nx (some z.1)) = _
          rw [if_neg hv, hr]
        · rw [List.eraseP_cons_of_neg (by simpa using hv)]
          exact hholds
        · rw [hfound, List.map_cons, List.mem_cons]
          exact ⟨Or.inr, fun h => h.resolve_left (Ne.symm hv)⟩
        · rw [List.find?_cons_of_neg (by simpa using hv)]
          exact hfrees

theorem deleteSection_spec {st : Store} {xs : List (Ptr × Nat)} (h : st.Holds xs)
    (rand : Nat) (prev : Option Ptr) :
    ∃ r, deleteSection st rand prev = some r ∧
      r.store.Holds (xs.eraseP fun x => x.2 = rand % 10) ∧
      (r.found = true ↔ rand % 10 ∈ xs.map Prod.snd) ∧
      Frees st r.store (xs.find? fun x => x.2 = rand % 10) :=
  @deleteLoop_spec _ _ _ _ [] _ _ h h nofun h.lt_fuel

/-- On values, that is the first occurrence. -/
theorem map_eraseP (v : Nat) (xs : List (Ptr × Nat)) :
    (xs.eraseP fun x => x.2 = v).map Prod.snd = (xs.map Prod.snd).erase v := by
  induction xs with
  | nil => rfl
  | cons x xs ih =>
      by_cases hx : x.2 = v
      · simp [hx]
      · rw [List.eraseP_cons_of_neg (by simpa using hx), List.map_cons, List.map_cons, ih,
          List.erase_cons_tail (by simpa using hx)]

/-- **`prev` is assigned before it is used**, on any list at all: what it held before
the walk makes no difference. The first node is told from the others by `head`,
and every other one has been stepped to. -/
theorem deleteSection_prev (st : Store) (rand : Nat) (prev prev' : Option Ptr) :
    (deleteSection st rand prev).map (fun r => (r.store, r.found)) =
      (deleteSection st rand prev').map fun r => (r.store, r.found) := by
  unfold deleteSection Store.fuel
  cases hhead : st.head with
  | none => rfl
  | some d =>
      simp only [deleteLoop, hhead]
      cases st.cells.lookup d with
      | none => rfl
      | some n =>
          dsimp only
          by_cases hv : n.val = rand % 10
          · rw [if_pos hv, if_pos hv]
            rfl
          · rw [if_neg hv, if_neg hv]

/-- The walk of `delete` on a list of the nodes `xs`: whatever `prev` was left at, it
ends with the first node that holds `v` taken out of the list and freed. -/
structure DeletesFirst (st : Store) (xs : List (Ptr × Nat)) (rand : Nat) (st' : Store) : Prop where
  ends : ∀ prev, ∃ prev', deleteSection st rand prev =
    some ⟨st', prev', decide (rand % 10 ∈ xs.map Prod.snd)⟩
  list : st'.Holds (xs.eraseP fun x => x.2 = rand % 10)
  freed : Frees st st' (xs.find? fun x => x.2 = rand % 10)

/-- **`delete` removes exactly the first match**, from every list and for every value
drawn. -/
theorem delete_first_match {st : Store} {xs : List (Ptr × Nat)} (h : st.Holds xs) (rand : Nat) :
    ∃ st', DeletesFirst st xs rand st' := by
  obtain ⟨r, hr, hholds, hfound, hfrees⟩ := deleteSection_spec h rand none
  refine ⟨r.store, fun prev => ?_, hholds, hfrees⟩
  have hsame := deleteSection_prev st rand prev none
  rw [hr, Option.map_some] at hsame
  obtain ⟨r', hr', hpair⟩ := Option.map_eq_some_iff.mp hsame
  obtain ⟨hstore, htold⟩ := Prod.mk.inj hpair
  have hbool : decide (rand % 10 ∈ xs.map Prod.snd) = r'.found := by
    rw [htold, Bool.decide_congr hfound.symm, Bool.decide_eq_true]
  refine ⟨r'.prev, hr'.trans ?_⟩
  rw [hbool, ← hstore]

/-- Three nodes, of which the last two hold the same value. -/
def twoFives : Store :=
  ⟨((AList.singleton 1 ⟨some 2, 4⟩).insert 2 ⟨some 3, 5⟩).insert 3 ⟨none, 5⟩, some 1⟩

theorem delete_first_five : ∃ st', DeletesFirst twoFives [(1, 4), (2, 5), (3, 5)] 25 st' ∧
    values st' = some [4, 5] ∧ st'.cells.lookup 2 = none := by
  have hholds : twoFives.Holds [(1, 4), (2, 5), (3, 5)] :=
    ⟨rfl, some 2, rfl, rfl, some 3, rfl, rfl, none, rfl, rfl⟩
  obtain ⟨st', hdel⟩ := delete_first_match hholds 25
  exact ⟨st', hdel, values_spec hdel.list, (hdel.freed 2).mpr (Or.inr ⟨(2, 5), rfl, rfl⟩)⟩

end OsProjects.SearchList
