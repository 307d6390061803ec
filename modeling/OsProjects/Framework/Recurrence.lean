import Mathlib

/-!
# Recurrences kept in a ring of cells

A sequence in which every value is computed from three of the last `n`:
`x (k + n) = f (x k) (x (k + 1)) (x (k + m))`. An array of `n` cells that overwrites its
oldest value with the next one always holds `n` consecutive values (`Window.slide`), so
that a generator working in place runs through the sequence (`unroll`).

If the sequence can also be followed backwards and its state has finitely many values,
it comes back to where it started (`exists_period`).
-/

namespace OsProjects.Framework

variable {α : Type} {f : α → α → α → α} {n m : Nat}

def Follows (f : α → α → α → α) (n m : Nat) (x : Nat → α) : Prop :=
  ∀ k, x (k + n) = f (x k) (x (k + 1)) (x (k + m))

/-! ## The sequence that starts with given values -/

def unroll (f : α → α → α → α) (n m : Nat) (hn : 1 < n) (hm : m < n) (a : Nat → α) (k : Nat) : α :=
  if k < n then a k
  else
    f (unroll f n m hn hm a (k - n)) (unroll f n m hn hm a (k - n + 1))
      (unroll f n m hn hm a (k - n + m))
termination_by k

theorem unroll_of_lt {hn : 1 < n} {hm : m < n} {a : Nat → α} {k : Nat} (hk : k < n) :
    unroll f n m hn hm a k = a k := by
  rw [unroll, if_pos hk]

theorem follows_unroll (hn : 1 < n) (hm : m < n) (a : Nat → α) :
    Follows f n m (unroll f n m hn hm a) := by
  intro k
  rw [unroll, if_neg (by omega), Nat.add_sub_cancel]

/-- `n` consecutive values determine the ones after them. -/
theorem Follows.eq_from {x y : Nat → α} (hx : Follows f n m x) (hy : Follows f n m y)
    (hn : 1 < n) (hm : m < n) {i j : Nat} (h : ∀ k < n, x (i + k) = y (j + k)) (k : Nat) :
    x (i + k) = y (j + k) := by
  induction k using Nat.strong_induction_on with
  | h k ih =>
      by_cases hk : k < n
      · exact h k hk
      · obtain ⟨k, rfl⟩ := Nat.exists_eq_add_of_le' (Nat.le_of_not_lt hk)
        rw [← Nat.add_assoc, ← Nat.add_assoc, hx, hy, Nat.add_assoc i, Nat.add_assoc i,
          Nat.add_assoc j, Nat.add_assoc j, ih k (by omega), ih (k + 1) (by omega),
          ih (k + m) (by omega)]

/-! ## The cells -/

/-- The cells hold the `n` values from `j` on, each where its number modulo `n` says. -/
def Window (x : Nat → α) (n j : Nat) (cells : Nat → α) : Prop :=
  ∀ i, j ≤ i → i < j + n → cells (i % n) = x i

section Cells

variable {x : Nat → α} {j : Nat} {cells : Nat → α}

theorem window_unroll (hn : 1 < n) (hm : m < n) (a : Nat → α) :
    Window (unroll f n m hn hm a) n 0 a := by
  intro i _ hi
  rw [Nat.zero_add] at hi
  rw [unroll_of_lt hi, Nat.mod_eq_of_lt hi]

/-- The oldest value makes room for the next one. -/
theorem Window.slide (h : Window x n j cells) {v : α} (hv : v = x (j + n)) :
    Window x n (j + 1) (Function.update cells (j % n) v) := by
  intro i hlo hhi
  by_cases hnew : i = j + n
  · rw [hnew, Nat.add_mod_right, Function.update_self, hv]
  · have hcell : i % n ≠ j % n := by
      intro hsame
      obtain ⟨d, rfl⟩ := Nat.exists_eq_add_of_le (show j ≤ i by omega)
      have hdvd : n ∣ d := (Nat.modEq_zero_iff_dvd).mp
        (Nat.ModEq.add_left_cancel' j (show j + d ≡ j + 0 [MOD n] from hsame))
      have := Nat.le_of_dvd (by omega) hdvd
      omega
    rw [Function.update_of_ne hcell]
    exact h i (by omega) (by omega)

/-- The cell of the value with a given distance from the start of a block of `n`. -/
theorem Window.read (h : Window x n j cells) {b r : Nat} (hr : r < n) (hlo : j ≤ n * b + r)
    (hhi : n * b + r < j + n) : cells r = x (n * b + r) := by
  rw [← h (n * b + r) hlo hhi, Nat.mul_add_mod, Nat.mod_eq_of_lt hr]

end Cells

/-! ## Coming back to the start -/

/-- A run through finitely many values in which each value has one successor and one
predecessor returns to its first value. -/
theorem exists_period {S : Type} [Fintype S] {e : Nat → S}
    (hforth : ∀ k l, e k = e l → e (k + 1) = e (l + 1))
    (hback : ∀ k l, e (k + 1) = e (l + 1) → e k = e l) :
    ∃ T, 0 < T ∧ T ≤ Fintype.card S ∧ ∀ k, e (k + T) = e k := by
  -- two of the first `card S + 1` values are the same
  obtain ⟨k, l, hne, heq⟩ := Fintype.exists_ne_map_eq_of_card_lt
    (fun k : Fin (Fintype.card S + 1) => e k) (by rw [Fintype.card_fin]; exact Nat.lt_succ_self _)
  wlog hlt : k.val < l.val generalizing k l
  · have hgt : l.val < k.val := by
      have : k.val ≠ l.val := fun h => hne (Fin.ext h)
      omega
    exact this l k hne.symm heq.symm hgt
  have hdown : ∀ i j, e (i + j) = e j → e i = e 0 := by
    intro i j h
    induction j with
    | zero => exact h
    | succ j ih => exact ih (hback (i + j) j h)
  refine ⟨l - k, by omega, by omega, fun i => ?_⟩
  have hstart : e (l - k) = e 0 := by
    refine hdown (l - k) k ?_
    rw [Nat.sub_add_cancel hlt.le]
    exact heq.symm
  induction i with
  | zero =>
      rw [Nat.zero_add]
      exact hstart
  | succ i ih =>
      rw [Nat.add_right_comm]
      exact hforth _ _ ih

end OsProjects.Framework
