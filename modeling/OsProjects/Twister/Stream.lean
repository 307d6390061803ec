import OsProjects.Framework.Recurrence
import OsProjects.Twister.Generator

/-!
# The numbers that are drawn

Every word of the generator is made from three earlier ones by `twist`. That
`genrand_int32` makes them `N` at a time and in place does not show: while the loops of
`refill` run, the array is a window that slides along the sequence (`window_regenerate`),
and the `n`-th draw returns the `n`-th word, tempered (`output_eq_temper_words`).

Tempering can be undone (`untemper_temper`). A number drawn is then a function of three
earlier ones, known to anyone who saw them (`output_predicted`).
-/

namespace OsProjects.Twister

open Framework

section Words

variable {w : Nat}

/-- The sequence of words that an array of `N` of them starts. -/
def words (mt : Nat → BitVec w) : Nat → BitVec w :=
  unroll twist N M one_lt_N M_lt_N mt

theorem follows_words (mt : Nat → BitVec w) : Follows twist N M (words mt) :=
  follows_unroll _ _ mt

theorem words_of_lt {mt : Nat → BitVec w} {k : Nat} (hk : k < N) : words mt k = mt k :=
  unroll_of_lt hk

/-! ## Refilling the array -/

variable {x mt : Nat → BitVec w} {b : Nat}

/-- One word is replaced. `kk`, `succ` and `far` are where the loop finds the three words. -/
theorem window_regenerate (hx : Follows twist N M x) {kk succ far : Nat} (hkk : kk < N)
    (h : Window x N (N * b + kk) mt) (hsucc : mt succ = x (N * b + kk + 1))
    (hfar : mt far = x (N * b + kk + M)) :
    Window x N (N * b + (kk + 1)) (regenerate mt kk succ far) := by
  have hold : mt kk = x (N * b + kk) := h.read hkk (Nat.le_refl _) (by omega)
  have hcell : kk = (N * b + kk) % N := by rw [Nat.mul_add_mod, Nat.mod_eq_of_lt hkk]
  have hnew : twist (mt kk) (mt succ) (mt far) = x (N * b + kk + N) := by
    rw [hold, hsucc, hfar, hx]
  rw [regenerate, hnew]
  nth_rewrite 2 [hcell]
  exact h.slide rfl

/-- **The three loops move the window on by `N` words.** -/
theorem window_refill (hx : Follows twist N M x) (h : Window x N (N * b) mt) :
    Window x N (N * (b + 1)) (refill mt) := by
  have hpos := M_pos
  have hlt := M_lt_N
  have hnext : N * (b + 1) = N * b + N := Nat.mul_succ N b
  unfold refill
  dsimp only
  generalize hfirst : forLoop 0 (N - M) _ mt = mt₁
  generalize hsecond : forLoop (N - M) (N - 1) _ mt₁ = mt₂
  -- the word `M` further on is still an old one
  have h₁ : Window x N (N * b + (N - M)) mt₁ := by
    rw [← hfirst]
    refine forLoop_invariant (P := fun kk mt => Window x N (N * b + kk) mt) (Nat.zero_le _) h
      fun kk mt _ hkk hw => window_regenerate hx (by omega) hw ?_ ?_
    · exact hw.read (by omega) (by omega) (by omega)
    · rw [Nat.add_assoc]
      exact hw.read (by omega) (by omega) (by omega)
  -- from here on it is a new one
  have h₂ : Window x N (N * b + (N - 1)) mt₂ := by
    rw [← hsecond]
    refine forLoop_invariant (P := fun kk mt => Window x N (N * b + kk) mt) (by omega) h₁
      fun kk mt hlo hkk hw => window_regenerate hx (by omega) hw ?_ ?_
    · exact hw.read (by omega) (by omega) (by omega)
    · have hfar : N * b + kk + M = N * (b + 1) + (kk + M - N) := by omega
      rw [hfar]
      exact hw.read (by omega) (by omega) (by omega)
  have hsucc : N * b + (N - 1) + 1 = N * (b + 1) + 0 := by omega
  have hfar : N * b + (N - 1) + M = N * (b + 1) + (M - 1) := by omega
  rw [hnext, show N * b + N = N * b + (N - 1 + 1) by omega]
  refine window_regenerate hx (by omega) h₂ ?_ ?_
  · rw [hsucc]
    exact h₂.read (by omega) (by omega) (by omega)
  · rw [hfar]
    exact h₂.read (by omega) (by omega) (by omega)

/-! ## Drawing -/

/-- The generator is about to return word `p` of the sequence. -/
structure Tracks (x : Nat → BitVec w) (p : Nat) (g : Gen w) : Prop where
  le : g.mti ≤ N
  window : ∃ b, p = N * b + g.mti ∧ Window x N (N * b) g.mt

theorem Tracks.seeded {g : Gen w} {p : Nat} (h : Tracks x p g) : seeded g = g := by
  have := h.le
  exact if_neg (by omega)

theorem tracks_words {g : Gen w} (h : g.mti ≤ N) : Tracks (words g.mt) g.mti g :=
  ⟨h, 0, by omega, window_unroll _ _ g.mt⟩

theorem seeded_le {g : Gen w} (h : g.mti ≤ N + 1) : (seeded g).mti ≤ N := by
  unfold Twister.seeded
  split
  · exact Nat.le_refl N
  · omega

/-- A draw returns the word, tempered, and goes on to the next. -/
theorem Tracks.draw (hx : Follows twist N M x) {g : Gen w} {p : Nat} (h : Tracks x p g) :
    (genrandInt32 g).1 = temper (x p) ∧ Tracks x (p + 1) (genrandInt32 g).2 := by
  obtain ⟨hle, b, rfl, hw⟩ := id h
  have hone := one_lt_N
  by_cases hfull : N ≤ g.mti
  · have hmti : g.mti = N := Nat.le_antisymm hle hfull
    have hw' := window_refill hx hw
    have hp : N * b + g.mti = N * (b + 1) + 0 := by rw [hmti, Nat.mul_succ, Nat.add_zero]
    rw [genrandInt32, if_pos hfull, h.seeded, hp]
    have hread : refill g.mt 0 = x (N * (b + 1) + 0) :=
      hw'.read (by omega) (Nat.le_refl _) (by omega)
    exact ⟨congrArg temper hread, hone.le, b + 1, rfl, hw'⟩
  · rw [genrandInt32, if_neg hfull]
    refine ⟨congrArg temper (hw.read (by omega) (by omega) (by omega)), ?_, b, rfl, hw⟩
    exact Nat.lt_of_not_le hfull

theorem Tracks.after (hx : Follows twist N M x) {g : Gen w} {p : Nat} (h : Tracks x p g)
    (n : Nat) : Tracks x (p + n) (after g n) := by
  induction n with
  | zero => exact h
  | succ n ih =>
      rw [after_succ]
      exact (ih.draw hx).2

/-- A draw does not care whether the default seed was taken before it or by it. -/
theorem genrandInt32_seeded (g : Gen w) : genrandInt32 (seeded g) = genrandInt32 g := by
  by_cases h : g.mti = N + 1
  · have hs : seeded g = initGenrand g (BitVec.ofNat w 5489) := if_pos h
    have hss : seeded (seeded g) = seeded g := by
      rw [hs]
      exact if_neg (by simp [initGenrand])
    have hfull : N ≤ (seeded g).mti := by rw [hs]; exact Nat.le_refl N
    rw [genrandInt32, genrandInt32, if_pos hfull, if_pos (by omega), hss]
  · rw [seeded, if_neg h]

theorem output_seeded (g : Gen w) (n : Nat) : output (seeded g) n = output g n := by
  have hafter : genrandInt32 (after (seeded g) n) = genrandInt32 (after g n) := by
    cases n with
    | zero => exact genrandInt32_seeded g
    | succ n =>
        rw [after, after, Function.iterate_succ_apply, Function.iterate_succ_apply]
        rw [genrandInt32_seeded]
  rw [output, output, hafter]

/-- **The draws are the recurrence, tempered.** However the words are stored and refilled,
the draw after `n` others returns word `mti + n` of the sequence the array starts. -/
theorem output_eq_temper_words (g : Gen w) (h : g.mti ≤ N + 1) (n : Nat) :
    output g n = temper (words (seeded g).mt ((seeded g).mti + n)) := by
  rw [← output_seeded]
  have ht := (tracks_words (seeded_le h)).after (follows_words _) n
  exact (ht.draw (follows_words _)).1

end Words

/-! ## Predicting a draw -/

/-- Tempering undone. -/
def untemper (y : BitVec 32) : BitVec 32 :=
  let y := unshiftRight 18 y 1
  let y := unshiftLeft 15 (BitVec.ofNat 32 0xefc60000) y 2
  let y := unshiftLeft 7 (BitVec.ofNat 32 0x9d2c5680) y 4
  unshiftRight 11 y 2

theorem untemper_temper (y : BitVec 32) : untemper (temper y) = y := by
  unfold untemper temper
  dsimp only
  rw [unshiftRight_xorShiftRight (by decide), unshiftLeft_xorShiftLeft (by decide),
    unshiftLeft_xorShiftLeft (by decide), unshiftRight_xorShiftRight (by decide)]

/-- A draw says which word it was made from. -/
theorem untemper_output (g : Gen 32) (h : g.mti ≤ N + 1) (n : Nat) :
    untemper (output g n) = words (seeded g).mt ((seeded g).mti + n) := by
  rw [output_eq_temper_words g h, untemper_temper]

/-- **Every draw is a function of three earlier ones**: those 624, 623 and 227 draws before
it. Nothing else about the generator is needed to compute it. -/
theorem output_predicted (g : Gen 32) (h : g.mti ≤ N + 1) (n : Nat) :
    output g (n + N) = temper (twist (untemper (output g n)) (untemper (output g (n + 1)))
      (untemper (output g (n + M)))) := by
  rw [untemper_output g h, untemper_output g h, untemper_output g h, output_eq_temper_words g h,
    ← Nat.add_assoc, ← Nat.add_assoc, ← Nat.add_assoc, follows_words]

theorem output_predicted_loaded :
    output loaded N = temper (twist (untemper (output loaded 0)) (untemper (output loaded 1))
      (untemper (output loaded M))) := by
  have h := output_predicted loaded (Nat.le_refl (N + 1)) 0
  rw [Nat.zero_add, Nat.zero_add, Nat.zero_add] at h
  exact h

/-- **`N` draws in a row give the generator away**: two generators that return the same `N`
numbers, at whatever point of their runs, return the same from there on. -/
theorem output_eq_of_same_draws (g g' : Gen 32) (h : g.mti ≤ N + 1) (h' : g'.mti ≤ N + 1)
    (i j : Nat) (hsame : ∀ k < N, output g (i + k) = output g' (j + k)) (k : Nat) :
    output g (i + k) = output g' (j + k) := by
  have hwords : ∀ k < N, words (seeded g).mt ((seeded g).mti + i + k) =
      words (seeded g').mt ((seeded g').mti + j + k) := by
    intro k hk
    rw [Nat.add_assoc, Nat.add_assoc, ← untemper_output g h, ← untemper_output g' h', hsame k hk]
  have hall := (follows_words _).eq_from (follows_words _) one_lt_N M_lt_N hwords k
  rw [output_eq_temper_words g h, output_eq_temper_words g' h', ← Nat.add_assoc, ← Nat.add_assoc,
    hall]

end OsProjects.Twister
