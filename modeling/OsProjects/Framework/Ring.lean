import Mathlib

/-!
# Circular doubly linked lists

The lists of `linux/list.h`: every node has a `next` and a `prev` link, an empty
list is a head that points to itself. `Visits f a xs b` says that following `f`
from `a` leads through `xs` to `b`; a ring is visited by `next` and, in the
opposite order, by `prev`. Each of the two directions is edited in the same way,
so `listAdd` and `listDelInit` come down to one lemma each about `Visits`
(`Visits.link`, `Visits.unlink`), used once forwards and once backwards.
-/

namespace OsProjects.Framework

/-- `struct list_head`, for all nodes at once. -/
structure Links (N : Type) where
  next : N → N
  prev : N → N

variable {N : Type}

/-! ## Following a link -/

def Visits (f : N → N) : N → List N → N → Prop
  | a, [], b => f a = b
  | a, x :: xs, b => f a = x ∧ Visits f x xs b

theorem visits_append_cons {f : N → N} {x b : N} {xs ys : List N} {a : N} :
    Visits f a (xs ++ x :: ys) b ↔ Visits f a xs x ∧ Visits f x ys b := by
  induction xs generalizing a with
  | nil => rfl
  | cons y xs ih =>
      simp only [List.cons_append, Visits, ih]
      tauto

theorem Visits.congr {f g : N → N} {a b : N} {xs : List N} (h : Visits f a xs b)
    (hag : ∀ z ∈ a :: xs, g z = f z) : Visits g a xs b := by
  induction xs generalizing a with
  | nil => exact (hag a List.mem_cons_self).trans h
  | cons x xs ih =>
      refine ⟨(hag a List.mem_cons_self).trans h.1, ih h.2 fun z hz => ?_⟩
      exact hag z (List.mem_cons_of_mem a hz)

/-- The first node visited. -/
theorem Visits.first {f : N → N} {a b : N} {xs : List N} (h : Visits f a xs b) :
    f a = xs.headD b := by
  cases xs with
  | nil => exact h
  | cons x xs => exact h.1

/-- The link of the last node before a point leads to the first one after it. -/
theorem Visits.at_last {f : N → N} {a b : N} {xs ys : List N} (h : Visits f a (xs ++ ys) b) :
    f (xs.getLastD a) = ys.headD b := by
  rcases List.eq_nil_or_concat' xs with rfl | ⟨xs, x, rfl⟩
  · exact h.first
  · rw [List.append_assoc, List.singleton_append, visits_append_cons] at h
    rw [List.getLastD_concat]
    exact h.2.first

/-- Only one list is visited on the way back to a node that is not on it. -/
theorem Visits.unique {f : N → N} {a b : N} {xs ys : List N} (hx : Visits f a xs b)
    (hy : Visits f a ys b) (hbx : b ∉ xs) (hby : b ∉ ys) : xs = ys := by
  induction xs generalizing a ys with
  | nil =>
      cases ys with
      | nil => rfl
      | cons y ys =>
          obtain rfl : y = b := hy.1.symm.trans hx
          exact absurd List.mem_cons_self hby
  | cons x xs ih =>
      cases ys with
      | nil =>
          obtain rfl : x = b := hx.1.symm.trans hy
          exact absurd List.mem_cons_self hbx
      | cons y ys =>
          obtain rfl : x = y := hx.1.symm.trans hy.1
          rw [ih hx.2 hy.2 (fun h => hbx (List.mem_cons_of_mem _ h))
            fun h => hby (List.mem_cons_of_mem _ h)]

/-! ## Rings -/

/-- The list with head `h` and nodes `xs`, in both directions. -/
structure Ring (l : Links N) (h : N) (xs : List N) : Prop where
  forward : Visits l.next h xs h
  backward : Visits l.prev h xs.reverse h
  nodup : (h :: xs).Nodup

variable {l : Links N} {h : N} {xs ys : List N}

theorem Ring.head_not_mem (hr : Ring l h xs) : h ∉ xs := (List.nodup_cons.mp hr.nodup).1

theorem Ring.unique (hx : Ring l h xs) (hy : Ring l h ys) : xs = ys :=
  hx.forward.unique hy.forward hx.head_not_mem hy.head_not_mem

/-- Links of other nodes do not matter. -/
theorem Ring.congr {l' : Links N} (hr : Ring l h xs)
    (hnext : ∀ z ∈ h :: xs, l'.next z = l.next z)
    (hprev : ∀ z ∈ h :: xs, l'.prev z = l.prev z) : Ring l' h xs := by
  refine ⟨hr.forward.congr hnext, hr.backward.congr fun z hz => hprev z ?_, hr.nodup⟩
  simpa using hz

theorem getLastD_reverse (xs : List N) (a : N) : xs.reverse.getLastD a = xs.headD a := by
  rw [List.getLastD_eq_getLast?, List.getLast?_reverse, List.headD_eq_head?_getD]

/-- The node before a point of the ring, and the one after it. -/
theorem Ring.next_at (hr : Ring l h (xs ++ ys)) : l.next (xs.getLastD h) = ys.headD h :=
  hr.forward.at_last

theorem Ring.prev_at (hr : Ring l h (xs ++ ys)) : l.prev (ys.headD h) = xs.getLastD h := by
  have hback := hr.backward
  rw [List.reverse_append] at hback
  have hat := hback.at_last
  rw [getLastD_reverse, ← getLastD_reverse xs.reverse, List.reverse_reverse] at hat
  exact hat

/-- A list without repetitions is split at a node in one way. -/
theorem split_unique {x : N} {as bs : List N} (hnodup : (xs ++ x :: ys).Nodup)
    (heq : xs ++ x :: ys = as ++ x :: bs) : xs = as ∧ ys = bs := by
  have hx : x ∉ xs ++ ys := (List.nodup_cons.mp (List.nodup_middle.mp hnodup)).1
  obtain ⟨hpre, -, hpost⟩ := (List.append_cons_inj_of_notMem
    (fun h => hx (List.mem_append_left _ h)) fun h => hx (List.mem_append_right _ h)).mp heq
  exact ⟨hpre, hpost⟩

/-- A node of the ring is the last one before some point of it. -/
theorem split_at_node {p : N} (hp : p ∈ h :: xs) :
    ∃ ys zs, xs = ys ++ zs ∧ ys.getLastD h = p := by
  rcases List.mem_cons.mp hp with rfl | hp
  · exact ⟨[], xs, rfl, rfl⟩
  · obtain ⟨ys, zs, rfl⟩ := List.append_of_mem hp
    exact ⟨ys ++ [p], zs, by simp, List.getLastD_concat ..⟩

theorem Ring.next_mem (hr : Ring l h xs) {p : N} (hp : p ∈ h :: xs) : l.next p ∈ h :: xs := by
  obtain ⟨ys, zs, rfl, rfl⟩ := split_at_node hp
  rw [hr.next_at]
  cases zs with
  | nil => exact List.mem_cons_self
  | cons z zs => simp

theorem Ring.prev_mem (hr : Ring l h xs) {p : N} (hp : p ∈ h :: xs) : l.prev p ∈ h :: xs := by
  have hlast : ∀ ys zs : List N, ys.getLastD h ∈ h :: (ys ++ zs) := by
    intro ys zs
    rw [← List.cons_append]
    exact List.mem_append_left zs List.getLastD_mem_cons
  rcases List.mem_cons.mp hp with rfl | hp
  · rw [← List.append_nil xs] at hr
    rw [show p = ([] : List N).headD p from rfl, hr.prev_at]
    simpa using hlast xs []
  · obtain ⟨ys, zs, rfl⟩ := List.append_of_mem hp
    have hat := hr.prev_at
    rw [List.headD_cons] at hat
    rw [hat]
    exact hlast ys _

/-! ## Editing a direction -/

variable [DecidableEq N]

theorem Visits.link_first {f : N → N} {a b new : N} {ys : List N} (h : Visits f a ys b)
    (hnew : new ∉ a :: ys) (ha : a ∉ ys) :
    Visits (Function.update (Function.update f new (f a)) a new) a (new :: ys) b := by
  have hna : new ≠ a := fun h => hnew (h ▸ List.mem_cons_self)
  refine ⟨Function.update_self .., ?_⟩
  have hfirst : Function.update (Function.update f new (f a)) a new new = f a := by
    rw [Function.update_of_ne hna, Function.update_self]
  cases ys with
  | nil => exact hfirst.trans h
  | cons y ys =>
      refine ⟨hfirst.trans h.1, h.2.congr fun z hz => ?_⟩
      have hza : z ≠ a := fun h => ha (h ▸ hz)
      have hzn : z ≠ new := fun h => hnew (h ▸ List.mem_cons_of_mem a hz)
      rw [Function.update_of_ne hza, Function.update_of_ne hzn]

/-- **Link a node in**, after the last node of `a :: xs`. -/
theorem Visits.link {f : N → N} {a b new : N} {xs ys : List N}
    (h : Visits f a (xs ++ ys) b) (hnodup : (a :: (xs ++ ys)).Nodup)
    (hnew : new ∉ a :: (xs ++ ys)) :
    Visits (Function.update (Function.update f new (f (xs.getLastD a))) (xs.getLastD a) new)
      a (xs ++ new :: ys) b := by
  rcases List.eq_nil_or_concat' xs with rfl | ⟨xs, x, rfl⟩
  · exact h.link_first hnew (List.nodup_cons.mp hnodup).1
  · rw [List.append_assoc, List.singleton_append] at *
    rw [List.getLastD_concat]
    obtain ⟨h1, h2⟩ := visits_append_cons.mp h
    rw [← List.cons_append, List.nodup_middle] at hnodup
    obtain ⟨hx, -⟩ := List.nodup_cons.mp hnodup
    refine visits_append_cons.mpr ⟨h1.congr fun z hz => ?_, h2.link_first ?_ ?_⟩
    · have hzx : z ≠ x := fun h => hx (h ▸ List.mem_append_left ys hz)
      have hzn : z ≠ new := by
        rintro rfl
        rcases List.mem_cons.mp hz with rfl | hz
        · exact hnew List.mem_cons_self
        · exact hnew (List.mem_cons_of_mem _ (List.mem_append_left _ hz))
      rw [Function.update_of_ne hzx, Function.update_of_ne hzn]
    · exact fun hmem => hnew (List.mem_cons_of_mem a (List.mem_append_right xs hmem))
    · exact fun hmem => hx (List.mem_append_right _ hmem)

theorem Visits.unlink_first {f : N → N} {a b e : N} {ys : List N} (h : Visits f a (e :: ys) b)
    (hea : e ≠ a) (he : e ∉ ys) (ha : a ∉ ys) :
    Visits (Function.update (Function.update f a (f e)) e e) a ys b := by
  have hfirst : Function.update (Function.update f a (f e)) e e a = f e := by
    rw [Function.update_of_ne hea.symm, Function.update_self]
  cases ys with
  | nil => exact hfirst.trans h.2
  | cons y ys =>
      refine ⟨hfirst.trans h.2.1, h.2.2.congr fun z hz => ?_⟩
      have hze : z ≠ e := fun h => he (h ▸ hz)
      have hza : z ≠ a := fun h => ha (h ▸ hz)
      rw [Function.update_of_ne hze, Function.update_of_ne hza]

/-- **Take a node out.** -/
theorem Visits.unlink {f : N → N} {a b e : N} {xs ys : List N}
    (h : Visits f a (xs ++ e :: ys) b) (hnodup : (a :: (xs ++ e :: ys)).Nodup) :
    Visits (Function.update (Function.update f (xs.getLastD a) (f e)) e e) a (xs ++ ys) b := by
  have hmid := hnodup
  rw [← List.cons_append, List.nodup_middle, List.nodup_cons] at hmid
  obtain ⟨he, hrest⟩ := hmid
  rcases List.eq_nil_or_concat' xs with rfl | ⟨xs, x, rfl⟩
  · refine h.unlink_first (fun h => he (h ▸ List.mem_cons_self)) ?_ ?_
    · exact fun hmem => he (List.mem_cons_of_mem a hmem)
    · exact (List.nodup_cons.mp hrest).1
  · rw [List.append_assoc, List.singleton_append] at h ⊢
    rw [List.getLastD_concat]
    obtain ⟨h1, h2⟩ := visits_append_cons.mp h
    rw [show a :: (xs ++ [x]) ++ ys = (a :: xs) ++ x :: ys by simp, List.nodup_middle,
      List.nodup_cons] at hrest
    obtain ⟨hx, -⟩ := hrest
    refine visits_append_cons.mpr ⟨h1.congr fun z hz => ?_, h2.unlink_first ?_ ?_ ?_⟩
    · have hzx : z ≠ x := fun h => hx (h ▸ List.mem_append_left ys hz)
      have hze : z ≠ e := by
        rintro rfl
        refine he (List.mem_append_left _ ?_)
        rw [← List.cons_append]
        exact List.mem_append_left _ hz
      rw [Function.update_of_ne hze, Function.update_of_ne hzx]
    · rintro rfl
      exact he (by simp)
    · exact fun hmem => he (List.mem_append_right _ hmem)
    · exact fun hmem => hx (List.mem_append_right _ hmem)

/-! ## The operations -/

/-- `INIT_LIST_HEAD` -/
def initListHead (l : Links N) (h : N) : Links N where
  next := Function.update l.next h h
  prev := Function.update l.prev h h

/-- `list_empty` -/
def listEmpty (l : Links N) (h : N) : Bool := l.next h = h

/-- `list_add(new, p)`: `new` comes right after `p`. -/
def listAdd (l : Links N) (new p : N) : Links N :=
  let n := l.next p
  { next := Function.update (Function.update l.next new n) p new
    prev := Function.update (Function.update l.prev n new) new p }

/-- `list_del_init(e)`: the neighbours of `e` are linked, and `e` to itself. -/
def listDelInit (l : Links N) (e : N) : Links N :=
  let p := l.prev e
  let n := l.next e
  { next := Function.update (Function.update l.next p n) e e
    prev := Function.update (Function.update l.prev n p) e e }

theorem ring_init (l : Links N) (h : N) : Ring (initListHead l h) h [] :=
  ⟨Function.update_self .., Function.update_self .., List.nodup_singleton h⟩

theorem Ring.listEmpty_iff (hr : Ring l h xs) : listEmpty l h = true ↔ xs = [] := by
  rw [listEmpty, decide_eq_true_eq, hr.forward.first]
  cases xs with
  | nil => simp
  | cons x xs =>
      simp only [List.headD_cons, reduceCtorEq, iff_false]
      rintro rfl
      exact hr.head_not_mem List.mem_cons_self

variable {e new : N}

/-- **`list_add` puts a node in.** -/
theorem Ring.add (hr : Ring l h (xs ++ ys)) (hnew : new ∉ h :: (xs ++ ys)) :
    Ring (listAdd l new (xs.getLastD h)) h (xs ++ new :: ys) := by
  have hnext := hr.next_at
  have hprev := hr.prev_at
  refine ⟨?_, ?_, ?_⟩
  · exact hr.forward.link hr.nodup hnew
  · have hback := hr.backward
    rw [List.reverse_append] at hback
    have hperm : (h :: (ys.reverse ++ xs.reverse)).Perm (h :: (xs ++ ys)) := by
      rw [← List.reverse_append]
      exact (List.reverse_perm _).cons h
    have hlink := hback.link (hperm.nodup_iff.mpr hr.nodup) fun hmem => hnew (hperm.mem_iff.mp hmem)
    rw [getLastD_reverse, hprev, ← hnext] at hlink
    rw [List.reverse_append, List.reverse_cons, List.append_assoc, List.singleton_append]
    have hne : new ≠ l.next (xs.getLastD h) := by
      rw [hnext]
      rintro rfl
      apply hnew
      cases ys with
      | nil => exact List.mem_cons_self
      | cons y ys => simp
    have hcomm : (listAdd l new (xs.getLastD h)).prev =
        Function.update (Function.update l.prev new (xs.getLastD h))
          (l.next (xs.getLastD h)) new := Function.update_comm hne.symm _ _ _
    rw [hcomm]
    exact hlink
  · rw [← List.cons_append, List.nodup_middle]
    exact List.nodup_cons.mpr ⟨hnew, hr.nodup⟩

/-- **`list_del_init` takes a node out.** -/
theorem Ring.del (hr : Ring l h (xs ++ e :: ys)) : Ring (listDelInit l e) h (xs ++ ys) := by
  have hprev : l.prev e = xs.getLastD h := hr.prev_at
  have hnext : l.next e = ys.headD h := by
    have hsplit : Ring l h ((xs ++ [e]) ++ ys) := by simpa using hr
    have hat := hsplit.next_at
    rwa [List.getLastD_concat] at hat
  refine ⟨?_, ?_, ?_⟩
  · have hlink := hr.forward.unlink hr.nodup
    rw [← hprev] at hlink
    exact hlink
  · have hback := hr.backward
    rw [List.reverse_append, List.reverse_cons, List.append_assoc, List.singleton_append] at hback
    have hperm : (h :: (ys.reverse ++ e :: xs.reverse)).Perm (h :: (xs ++ e :: ys)) := by
      rw [show ys.reverse ++ e :: xs.reverse = (xs ++ e :: ys).reverse by simp]
      exact (List.reverse_perm _).cons h
    have hlink := hback.unlink (hperm.nodup_iff.mpr hr.nodup)
    rw [getLastD_reverse, ← hnext] at hlink
    rw [List.reverse_append]
    exact hlink
  · have hnodup := hr.nodup
    rw [← List.cons_append, List.nodup_middle] at hnodup
    exact (List.nodup_cons.mp hnodup).2

end OsProjects.Framework
