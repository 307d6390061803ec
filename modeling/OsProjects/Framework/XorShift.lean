import Mathlib

/-!
# Undoing exclusive-or shifts

`x ^ (x >> k)` and `x ^ ((x << k) & mask)` lose nothing as long as `k` is positive: the
`k` bits at one end of `x` are still there, each round of `t ↦ y ^ (t >> k)` brings back
`k` more, and after enough rounds all of `x` is back (`unshiftRight_xorShiftRight`,
`unshiftLeft_xorShiftLeft`), at every width.
-/

namespace OsProjects.Framework

variable {w : Nat}

def xorShiftRight (k : Nat) (x : BitVec w) : BitVec w := x ^^^ (x >>> k)

def xorShiftLeft (k : Nat) (mask x : BitVec w) : BitVec w := x ^^^ ((x <<< k) &&& mask)

/-- `rounds` rounds of recovering what was shifted right. -/
def unshiftRight (k : Nat) (y : BitVec w) : Nat → BitVec w
  | 0 => y
  | rounds + 1 => y ^^^ (unshiftRight k y rounds >>> k)

def unshiftLeft (k : Nat) (mask y : BitVec w) : Nat → BitVec w
  | 0 => y
  | rounds + 1 => y ^^^ ((unshiftLeft k mask y rounds <<< k) &&& mask)

/-- The high bits that are right after some rounds. -/
theorem getLsbD_unshiftRight (k : Nat) (x : BitVec w) (rounds : Nat) {i : Nat}
    (hi : w ≤ i + (rounds + 1) * k) :
    (unshiftRight k (xorShiftRight k x) rounds).getLsbD i = x.getLsbD i := by
  induction rounds generalizing i with
  | zero =>
      rw [Nat.zero_add, Nat.one_mul] at hi
      rw [unshiftRight, xorShiftRight, BitVec.getLsbD_xor, BitVec.getLsbD_ushiftRight,
        BitVec.getLsbD_of_ge x (k + i) (by omega), Bool.xor_false]
  | succ rounds ih =>
      have hbit : (unshiftRight k (xorShiftRight k x) rounds).getLsbD (k + i) =
          x.getLsbD (k + i) := ih (by rw [Nat.succ_mul] at hi; omega)
      rw [unshiftRight, BitVec.getLsbD_xor, BitVec.getLsbD_ushiftRight, hbit, xorShiftRight,
        BitVec.getLsbD_xor, BitVec.getLsbD_ushiftRight, Bool.xor_assoc, Bool.xor_self,
        Bool.xor_false]

theorem unshiftRight_xorShiftRight {k rounds : Nat} (h : w ≤ (rounds + 1) * k) (x : BitVec w) :
    unshiftRight k (xorShiftRight k x) rounds = x := by
  refine BitVec.eq_of_getLsbD_eq fun i _ => ?_
  exact getLsbD_unshiftRight k x rounds (by omega)

/-- The low bits that are right after some rounds. -/
theorem getLsbD_unshiftLeft (k : Nat) (mask x : BitVec w) (rounds : Nat) {i : Nat}
    (hi : i < (rounds + 1) * k) :
    (unshiftLeft k mask (xorShiftLeft k mask x) rounds).getLsbD i = x.getLsbD i := by
  induction rounds generalizing i with
  | zero =>
      rw [Nat.zero_add, Nat.one_mul] at hi
      rw [unshiftLeft, xorShiftLeft, BitVec.getLsbD_xor, BitVec.getLsbD_and,
        BitVec.getLsbD_shiftLeft, decide_eq_true hi]
      simp
  | succ rounds ih =>
      rw [unshiftLeft, xorShiftLeft, BitVec.getLsbD_xor, BitVec.getLsbD_xor, ← xorShiftLeft]
      have hshift : ((unshiftLeft k mask (xorShiftLeft k mask x) rounds <<< k) &&& mask).getLsbD i =
          ((x <<< k) &&& mask).getLsbD i := by
        rw [BitVec.getLsbD_and, BitVec.getLsbD_and, BitVec.getLsbD_shiftLeft,
          BitVec.getLsbD_shiftLeft]
        by_cases hk : i < k
        · simp [hk]
        · rw [ih (by rw [Nat.succ_mul] at hi; omega)]
      rw [hshift, Bool.xor_assoc, Bool.xor_self, Bool.xor_false]

theorem unshiftLeft_xorShiftLeft {k rounds : Nat} {mask : BitVec w} (h : w ≤ (rounds + 1) * k)
    (x : BitVec w) : unshiftLeft k mask (xorShiftLeft k mask x) rounds = x := by
  refine BitVec.eq_of_getLsbD_eq fun i hi => ?_
  exact getLsbD_unshiftLeft k mask x rounds (by omega)

end OsProjects.Framework
