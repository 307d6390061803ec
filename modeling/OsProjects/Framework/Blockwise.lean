import Mathlib

/-!
# Blockwise copies

A memory is a map from addresses to bytes, of any type. `copyBlocks` goes
through `k` blocks of `n` bytes from `a` in a source, passes each through `f`
and stores it from `b` on in a destination: what a loop over a block cipher does.
Each byte of the result comes from the block it is in (`copyBlocks_inside`), and
all other bytes stay (`copyBlocks_outside`).
-/

namespace OsProjects.Framework

variable {β : Type} {n : Nat}

/-- The `n` bytes at `a`. -/
def blockAt (n : Nat) (m : Nat → β) (a : Nat) : Fin n → β := fun j => m (a + j)

/-- Store a block at `a`. -/
def putBlock (m : Nat → β) (a : Nat) (w : Fin n → β) : Nat → β := fun x =>
  if h : a ≤ x ∧ x - a < n then w ⟨x - a, h.2⟩ else m x

theorem putBlock_inside (m : Nat → β) (a : Nat) (w : Fin n → β) (j : Fin n) :
    putBlock m a w (a + j) = w j := by
  have hsub : a + j - a = j := Nat.add_sub_cancel_left a j
  rw [putBlock, dif_pos ⟨Nat.le_add_right a j, by rw [hsub]; exact j.2⟩]
  exact congrArg w (Fin.ext hsub)

theorem putBlock_outside {m : Nat → β} {a x : Nat} {w : Fin n → β}
    (h : x < a ∨ a + n ≤ x) : putBlock m a w x = m x := by
  rw [putBlock, dif_neg (by omega)]

theorem blockAt_congr {m m' : Nat → β} {a a' : Nat} (h : ∀ j < n, m (a + j) = m' (a' + j)) :
    blockAt n m a = blockAt n m' a' := by
  funext j
  exact h j j.2

/-- A memory passed through `f` block by block. -/
def blockwise (hn : 0 < n) (f : (Fin n → β) → Fin n → β) (m : Nat → β) : Nat → β := fun x =>
  f (blockAt n m (x / n * n)) ⟨x % n, Nat.mod_lt x hn⟩

/-- It only depends on the block the byte is in. -/
theorem blockwise_congr {hn : 0 < n} {f : (Fin n → β) → Fin n → β} {m m' : Nat → β}
    {x y : Nat} (hmod : x % n = y % n) (h : ∀ j < n, m (x / n * n + j) = m' (y / n * n + j)) :
    blockwise hn f m x = blockwise hn f m' y := by
  unfold blockwise
  rw [blockAt_congr h]
  exact congrArg _ (Fin.ext hmod)

/-- **Passing a block through `f` and then through its inverse.** -/
theorem blockwise_undo {hn : 0 < n} {f g : (Fin n → β) → Fin n → β} (hgf : ∀ w, g (f w) = w)
    {m m' : Nat → β} {x : Nat}
    (h : ∀ j < n, m' (x / n * n + j) = blockwise hn f m (x / n * n + j)) :
    blockwise hn g m' x = m x := by
  have hblock : blockAt n m' (x / n * n) = f (blockAt n m (x / n * n)) := by
    funext j
    have hdiv : (x / n * n + j) / n = x / n := by
      rw [Nat.mul_comm, Nat.mul_add_div hn, Nat.div_eq_of_lt j.2, Nat.add_zero]
    have hmod : (x / n * n + j) % n = j := by
      rw [Nat.mul_comm, Nat.mul_add_mod, Nat.mod_eq_of_lt j.2]
    have hj := h j j.2
    rw [blockwise, hdiv] at hj
    exact hj.trans (congrArg _ (Fin.ext hmod))
  rw [blockwise, hblock, hgf]
  exact congrArg m (Nat.div_add_mod' x n)

/-- `k` blocks from `a` in `src`, passed through `f`, to `b` on in `dst`. -/
def copyBlocks (f : (Fin n → β) → Fin n → β) (src : Nat → β) (a : Nat) (dst : Nat → β)
    (b : Nat) : Nat → Nat → β
  | 0 => dst
  | k + 1 => putBlock (copyBlocks f src a dst b k) (b + k * n) (f (blockAt n src (a + k * n)))

section Copy

variable {f : (Fin n → β) → Fin n → β} {src dst : Nat → β} {a b : Nat}

theorem copyBlocks_outside {x : Nat} : ∀ {k : Nat}, x < b ∨ b + k * n ≤ x →
    copyBlocks f src a dst b k x = dst x
  | 0, _ => rfl
  | k + 1, h => by
      have hlen : (k + 1) * n = k * n + n := Nat.succ_mul k n
      rw [copyBlocks, putBlock_outside (by omega), copyBlocks_outside (by omega)]

/-- A loop over the blocks copies them. -/
theorem foldl_putBlock (k : Nat) :
    (List.range k).foldl (fun dst i => putBlock dst (b + i * n) (f (blockAt n src (a + i * n))))
      dst = copyBlocks f src a dst b k := by
  induction k with
  | zero => rfl
  | succ k ih =>
      rw [List.range_succ, List.foldl_append, ih]
      rfl

/-- **Each byte comes from its block.** -/
theorem copyBlocks_inside (hn : 0 < n) {j : Nat} : ∀ {k : Nat}, j < k * n →
    copyBlocks f src a dst b k (b + j) = blockwise hn f (fun x => src (a + x)) j
  | 0, h => absurd h (by rw [Nat.zero_mul]; exact Nat.not_lt_zero j)
  | k + 1, h => by
      have hlen : (k + 1) * n = k * n + n := Nat.succ_mul k n
      by_cases hj : j < k * n
      · rw [copyBlocks, putBlock_outside (by omega)]
        exact copyBlocks_inside hn hj
      · -- in the last block
        have hdiv : j / n = k := Nat.div_eq_of_lt_le (by omega) (by omega)
        have hmod : k * n + j % n = j := by
          rw [← hdiv]
          exact Nat.div_add_mod' j n
        have hput := putBlock_inside (copyBlocks f src a dst b k) (b + k * n)
          (f (blockAt n src (a + k * n))) ⟨j % n, Nat.mod_lt j hn⟩
        rw [show b + k * n + (⟨j % n, Nat.mod_lt j hn⟩ : Fin n) = b + j by
          show b + k * n + j % n = b + j
          omega] at hput
        have hsrc : blockAt n (fun x => src (a + x)) (k * n) = blockAt n src (a + k * n) := by
          refine blockAt_congr fun i _ => ?_
          rw [Nat.add_assoc]
        rw [blockwise, hdiv, hsrc]
        exact hput

/-- A whole block of the result, and a block beside it. -/
theorem blockAt_copyBlocks {j k : Nat} (hj : j < k) :
    blockAt n (copyBlocks f src a dst b k) (b + j * n) = f (blockAt n src (a + j * n)) := by
  induction k with
  | zero => exact absurd hj (Nat.not_lt_zero j)
  | succ k ih =>
      rw [copyBlocks]
      rcases Nat.lt_succ_iff_lt_or_eq.mp hj with hlt | rfl
      · rw [← ih hlt]
        have hle : (j + 1) * n ≤ k * n := Nat.mul_le_mul_right n hlt
        rw [Nat.succ_mul] at hle
        exact blockAt_congr fun i hi => putBlock_outside (Or.inl (by omega))
      · funext i
        exact putBlock_inside _ _ _ i

theorem blockAt_copyBlocks_beside {c k : Nat} (h : c + n ≤ b ∨ b + k * n ≤ c) :
    blockAt n (copyBlocks f src a dst b k) c = blockAt n dst c :=
  blockAt_congr fun i hi => copyBlocks_outside (by omega)

end Copy

end OsProjects.Framework
