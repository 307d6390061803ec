import Mathlib

/-!
# Singly linked lists in memory

Memory is a finite map from pointers to nodes; `NULL` is `none`. `Seg m p xs q`
says that following `next` from `p` visits the nodes `xs`, pointers and values,
and ends at `q`; a list is a segment that ends at `NULL`. Two lists from one
pointer are the same (`Seg.unique`), so a list never visits a node twice
(`Seg.nodup`) and is no longer than memory is large (`Seg.length_le`). The three
edits are to link a node at the end, and to unlink one at the head or behind
another node (`Seg.bypass`), and then to free it.
-/

namespace OsProjects.Framework

variable {P α : Type} [DecidableEq P]

structure Node (P α : Type) where
  next : Option P
  val : α
deriving DecidableEq, Repr

/-- Allocated nodes by pointer. -/
abbrev Cells (P α : Type) := AList fun _ : P => Node P α

def Seg (m : Cells P α) : Option P → List (P × α) → Option P → Prop
  | p, [], q => p = q
  | p, x :: xs, q => p = some x.1 ∧ ∃ nx, m.lookup x.1 = some ⟨nx, x.2⟩ ∧ Seg m nx xs q

/-! ## Reading -/

theorem seg_append {m : Cells P α} {q : Option P} {ys : List (P × α)} :
    ∀ {xs : List (P × α)} {p : Option P},
      Seg m p (xs ++ ys) q ↔ ∃ r, Seg m p xs r ∧ Seg m r ys q
  | [], p => by simp [Seg]
  | x :: xs, p => by
      simp only [List.cons_append, Seg, seg_append]
      constructor
      · rintro ⟨hp, nx, hx, r, h1, h2⟩
        exact ⟨r, ⟨hp, nx, hx, h1⟩, h2⟩
      · rintro ⟨r, ⟨hp, nx, hx, h1⟩, h2⟩
        exact ⟨hp, nx, hx, r, h1, h2⟩

theorem seg_none {m : Cells P α} {xs : List (P × α)} {q : Option P}
    (h : Seg m none xs q) : xs = [] ∧ q = none := by
  cases xs with
  | nil => exact ⟨rfl, h.symm⟩
  | cons x xs => cases h.1

theorem Seg.unique {m : Cells P α} : ∀ {xs ys : List (P × α)} {p : Option P},
    Seg m p xs none → Seg m p ys none → xs = ys
  | [], ys, p, h1, h2 => by
      rw [show p = none from h1] at h2
      exact (seg_none h2).1.symm
  | x :: xs, [], p, h1, h2 => by
      rw [show p = none from h2] at h1
      cases h1.1
  | (a, v) :: xs, (b, w) :: ys, p, ⟨ha, nx, hx, hxs⟩, ⟨hb, ny, hy, hys⟩ => by
      obtain rfl : a = b := Option.some.inj (ha.symm.trans hb)
      obtain ⟨rfl, rfl⟩ := Node.mk.inj (Option.some.inj (hx.symm.trans hy))
      rw [hxs.unique hys]

theorem Seg.lookup {m : Cells P α} : ∀ {xs : List (P × α)} {p q : Option P},
    Seg m p xs q → ∀ x ∈ xs, ∃ nx, m.lookup x.1 = some ⟨nx, x.2⟩
  | [], _, _, _, x, hx => nomatch hx
  | y :: ys, _, _, ⟨_, nx, hy, hys⟩, x, hx => by
      rcases List.mem_cons.mp hx with rfl | hx
      · exact ⟨nx, hy⟩
      · exact hys.lookup x hx

/-- A node of a list splits it: what comes after is the list from its `next`. -/
theorem Seg.split_of_mem {m : Cells P α} {xs : List (P × α)} {p : Option P} {a : P}
    (h : Seg m p xs none) (ha : a ∈ xs.map Prod.fst) :
    ∃ ys v zs nx, xs = ys ++ (a, v) :: zs ∧ m.lookup a = some ⟨nx, v⟩ ∧ Seg m nx zs none := by
  obtain ⟨x, hx, rfl⟩ := List.mem_map.mp ha
  obtain ⟨ys, zs, rfl⟩ := List.append_of_mem hx
  obtain ⟨r, -, -, nx, hlook, hzs⟩ := seg_append.mp h
  exact ⟨ys, x.2, zs, nx, rfl, hlook, hzs⟩

/-- Following `next` from a node of a list stays on the list. -/
theorem Seg.next_mem {m : Cells P α} {xs : List (P × α)} {p : Option P} {a q : P}
    {v : α} (h : Seg m p xs none) (ha : a ∈ xs.map Prod.fst)
    (hnext : m.lookup a = some ⟨some q, v⟩) : q ∈ xs.map Prod.fst := by
  obtain ⟨ys, w, zs, nx, rfl, hlook, hzs⟩ := h.split_of_mem ha
  obtain ⟨rfl, rfl⟩ := Node.mk.inj (Option.some.inj (hlook.symm.trans hnext))
  cases zs with
  | nil => cases hzs
  | cons z zs =>
      obtain rfl : q = z.1 := Option.some.inj hzs.1
      simp

/-- **No cycles**: from a node met twice the list would go on in two ways. -/
theorem Seg.nodup {m : Cells P α} : ∀ {xs : List (P × α)} {p : Option P},
    Seg m p xs none → (xs.map Prod.fst).Nodup
  | [], _, _ => List.nodup_nil
  | x :: xs, p, h => by
      obtain ⟨hp, nx, hx, hxs⟩ := h
      rw [List.map_cons, List.nodup_cons]
      refine ⟨fun hmem => ?_, hxs.nodup⟩
      obtain ⟨y, hy, hyx⟩ := List.mem_map.mp hmem
      obtain ⟨ys, zs, rfl⟩ := List.append_of_mem hy
      obtain ⟨r, -, hr⟩ := seg_append.mp hxs
      have htail : Seg m (some x.1) (y :: zs) none := by
        rw [← hyx, ← hr.1]
        exact hr
      have hwhole : Seg m (some x.1) (x :: (ys ++ y :: zs)) none := ⟨rfl, nx, hx, hxs⟩
      have hlen := congrArg List.length (htail.unique hwhole)
      simp only [List.length_cons, List.length_append] at hlen
      omega

/-- A node occurs once, so dropping it leaves none of it. -/
theorem Seg.not_mem_drop {m : Cells P α} {xs ys : List (P × α)} {y : P × α} {p : Option P}
    (h : Seg m p (xs ++ y :: ys) none) : y.1 ∉ (xs ++ ys).map Prod.fst := by
  have hnodup := h.nodup
  rw [List.map_append, List.map_cons, List.nodup_middle, List.nodup_cons,
    ← List.map_append] at hnodup
  exact hnodup.1

/-- A node with others before it is not the first. -/
theorem Seg.not_head {m : Cells P α} {xs ys : List (P × α)} {y : P × α} {p : Option P}
    (h : Seg m p (xs ++ y :: ys) none) (hne : xs ≠ []) : p ≠ some y.1 := by
  intro hp
  have hdrop := h.not_mem_drop
  cases xs with
  | nil => exact hne rfl
  | cons x xs =>
      have hxy : x.1 = y.1 := Option.some.inj (h.1.symm.trans hp)
      exact hdrop (by simp [hxy])

theorem Seg.length_le {m : Cells P α} {xs : List (P × α)} {p : Option P}
    (h : Seg m p xs none) : xs.length ≤ m.keys.length := by
  have hsub : xs.map Prod.fst ⊆ m.keys := by
    intro a ha
    obtain ⟨x, hx, rfl⟩ := List.mem_map.mp ha
    obtain ⟨nx, hlook⟩ := h.lookup x hx
    exact AList.lookup_isSome.mp (by rw [hlook]; rfl)
  have hle := (List.subperm_of_subset h.nodup hsub).length_le
  rwa [List.length_map] at hle

/-! ## Writing -/

/-- A segment only reads its own nodes. -/
theorem Seg.congr {m m' : Cells P α} : ∀ {xs : List (P × α)} {p q : Option P},
    Seg m p xs q → (∀ x ∈ xs, m'.lookup x.1 = m.lookup x.1) → Seg m' p xs q
  | [], _, _, h, _ => h
  | x :: xs, _, _, ⟨hp, nx, hx, hxs⟩, hag => by
      refine ⟨hp, nx, (hag x List.mem_cons_self).trans hx, hxs.congr fun y hy => ?_⟩
      exact hag y (List.mem_cons_of_mem x hy)

theorem Seg.insert {m : Cells P α} {xs : List (P × α)} {p q : Option P} {a : P}
    (h : Seg m p xs q) (ha : a ∉ xs.map Prod.fst) (n : Node P α) :
    Seg (m.insert a n) p xs q := by
  refine h.congr fun x hx => AList.lookup_insert_ne ?_
  rintro rfl
  exact ha (List.mem_map_of_mem hx)

theorem Seg.erase {m : Cells P α} {xs : List (P × α)} {p q : Option P} {a : P}
    (h : Seg m p xs q) (ha : a ∉ xs.map Prod.fst) : Seg (m.erase a) p xs q := by
  refine h.congr fun x hx => AList.lookup_erase_ne ?_
  rintro rfl
  exact ha (List.mem_map_of_mem hx)

theorem Seg.not_mem_of_fresh {m : Cells P α} {xs : List (P × α)} {p q : Option P} {a : P}
    (h : Seg m p xs q) (hfresh : m.lookup a = none) : a ∉ xs.map Prod.fst := by
  intro hmem
  obtain ⟨x, hx, rfl⟩ := List.mem_map.mp hmem
  obtain ⟨nx, hlook⟩ := h.lookup x hx
  cases hfresh.symm.trans hlook

/-- **Link at the end**: the last node is made to point to another one. -/
theorem Seg.linkLast {m : Cells P α} {xs : List (P × α)} {x : P × α} {p : Option P} {a : P}
    {v : α} (h : Seg m p (xs ++ [x]) none) (ha : m.lookup a = some ⟨none, v⟩)
    (hnew : a ∉ (xs ++ [x]).map Prod.fst) :
    Seg (m.insert x.1 ⟨some a, x.2⟩) p (xs ++ [x] ++ [(a, v)]) none := by
  have hnodup := h.nodup
  rw [List.map_append, List.nodup_append] at hnodup
  have hx' : x.1 ∉ xs.map Prod.fst := fun hmem => hnodup.2.2 _ hmem _ (by simp) rfl
  have hax : a ≠ x.1 := by
    rintro rfl
    exact hnew (by simp)
  obtain ⟨r, hxs, hx⟩ := seg_append.mp h
  rw [List.append_assoc]
  refine seg_append.mpr ⟨r, hxs.insert hx' _, hx.1, some a, ?_, rfl, none, ?_, rfl⟩
  · exact AList.lookup_insert _
  · rw [AList.lookup_insert_ne hax]
    exact ha

/-- **Link a new node at the end.** -/
theorem Seg.linkEnd {m : Cells P α} {xs : List (P × α)} {x : P × α} {p : Option P} {a : P}
    {v : α} (h : Seg m p (xs ++ [x]) none) (hfresh : m.lookup a = none) :
    Seg ((m.insert a ⟨none, v⟩).insert x.1 ⟨some a, x.2⟩) p (xs ++ [x] ++ [(a, v)]) none :=
  have hnew := h.not_mem_of_fresh hfresh
  (h.insert hnew _).linkLast (AList.lookup_insert _) hnew

/-- **Unlink at the head.** -/
theorem Seg.unlinkHead {m : Cells P α} {xs : List (P × α)} {x : P × α} {p nx : Option P}
    (h : Seg m p (x :: xs) none) (hx : m.lookup x.1 = some ⟨nx, x.2⟩) :
    Seg (m.erase x.1) nx xs none := by
  have hnot : x.1 ∉ xs.map Prod.fst := (List.nodup_cons.mp h.nodup).1
  obtain ⟨-, nx', hx', hxs⟩ := h
  obtain rfl : nx' = nx := (Node.mk.inj (Option.some.inj (hx'.symm.trans hx))).1
  exact hxs.erase hnot

/-- **Bypass a node**: the one before it is made to point past it. -/
theorem Seg.bypass {m : Cells P α} {xs ys : List (P × α)} {x y : P × α} {p nx : Option P}
    (h : Seg m p (xs ++ x :: y :: ys) none) (hy : m.lookup y.1 = some ⟨nx, y.2⟩) :
    Seg (m.insert x.1 ⟨nx, x.2⟩) p (xs ++ x :: ys) none := by
  have hnodup := h.nodup
  rw [List.map_append, List.nodup_append] at hnodup
  obtain ⟨-, hn, hdisj⟩ := hnodup
  simp only [List.map_cons, List.nodup_cons, List.mem_cons, not_or] at hn
  obtain ⟨⟨-, hxys⟩, -, -⟩ := hn
  have hxxs : x.1 ∉ xs.map Prod.fst := fun hmem => hdisj _ hmem _ (by simp) rfl
  obtain ⟨r, hxs, hp, nx', -, -, ny, hy', hys⟩ := seg_append.mp h
  obtain rfl : ny = nx := (Node.mk.inj (Option.some.inj (hy'.symm.trans hy))).1
  refine seg_append.mpr ⟨r, hxs.insert hxxs _, hp, ny, ?_, hys.insert hxys _⟩
  exact AList.lookup_insert _

/-- **Unlink behind a node**: bypass it and free it. -/
theorem Seg.unlink {m : Cells P α} {xs ys : List (P × α)} {x y : P × α} {p nx : Option P}
    (h : Seg m p (xs ++ x :: y :: ys) none) (hy : m.lookup y.1 = some ⟨nx, y.2⟩) :
    Seg ((m.insert x.1 ⟨nx, x.2⟩).erase y.1) p (xs ++ x :: ys) none := by
  refine (h.bypass hy).erase ?_
  have hdrop := @Seg.not_mem_drop _ _ _ m (xs ++ [x]) ys y p (by simpa using h)
  simpa using hdrop

/-! ## Counting nodes -/

section Count

variable {m : Cells P α} {p : P} {n n' : Node P α}

theorem Cells.length_insert_new (h : m.lookup p = none) :
    (m.insert p n).keys.length = m.keys.length + 1 := by
  have hnot : p ∉ m.keys := AList.lookup_eq_none.mp h
  rw [AList.keys_insert, List.length_cons, List.erase_of_not_mem hnot]

theorem Cells.length_insert_old (h : m.lookup p = some n) :
    (m.insert p n').keys.length = m.keys.length := by
  have hmem : p ∈ m.keys := AList.lookup_isSome.mp (by rw [h]; rfl)
  have hpos := List.length_pos_of_mem hmem
  rw [AList.keys_insert, List.length_cons, List.length_erase_of_mem hmem]
  omega

theorem Cells.length_erase_add (h : p ∈ m.keys) :
    (m.erase p).keys.length + 1 = m.keys.length := by
  have hpos := List.length_pos_of_mem h
  rw [AList.keys_erase, List.length_erase_of_mem h]
  omega

end Count

end OsProjects.Framework
