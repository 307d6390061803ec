import Mathlib

/-!
# Byte-addressed memory

Memory is a total map from addresses to bytes. Machine integers of `n` bytes
are read and written little-endian (`readLE`, `writeLE`), two's complement when
signed (`readSigned`, `writeSigned`). Every write comes with its frame lemma:
bytes outside the written range keep their value.
-/

namespace OsProjects.Framework

abbrev Mem : Type := Nat → UInt8

/-- The unsigned `n`-byte integer at `a`. -/
def readLE (m : Mem) (a : Nat) : Nat → Nat
  | 0 => 0
  | n + 1 => (m a).toNat + 256 * readLE m (a + 1) n

/-- Store `v` modulo `256 ^ n` in the `n` bytes at `a`. -/
def writeLE (m : Mem) (a : Nat) : Nat → Nat → Mem
  | 0, _ => m
  | n + 1, v =>
      writeLE (fun x => if x = a then UInt8.ofNat (v % 256) else m x) (a + 1) n (v / 256)

/-- `memset`: the byte `b` at each of the `n` addresses from `a`. -/
def fillBytes (m : Mem) (a n : Nat) (b : UInt8) : Mem :=
  fun x => if a ≤ x ∧ x < a + n then b else m x

/-! ## Frames -/

theorem writeLE_frame : ∀ (n : Nat) (m : Mem) (a v x : Nat),
    x < a ∨ a + n ≤ x → writeLE m a n v x = m x
  | 0, _, _, _, _, _ => rfl
  | n + 1, m, a, v, x, h => by
      rw [writeLE, writeLE_frame n _ _ _ _ (by omega), if_neg (by omega)]

theorem readLE_congr {m m' : Mem} : ∀ {n a : Nat},
    (∀ x, a ≤ x → x < a + n → m' x = m x) → readLE m' a n = readLE m a n
  | 0, _, _ => rfl
  | n + 1, a, h => by
      rw [readLE, readLE, h a (Nat.le_refl a) (by omega),
        readLE_congr fun x h1 h2 => h x (by omega) (by omega)]

/-! ## Reading back what was written -/

theorem readLE_writeLE : ∀ (n : Nat) (m : Mem) (a v : Nat),
    readLE (writeLE m a n v) a n = v % 256 ^ n
  | 0, _, _, v => by simp [readLE, Nat.mod_one]
  | n + 1, m, a, v => by
      have hbyte : (UInt8.ofNat (v % 256)).toNat = v % 256 := by simp
      rw [writeLE, readLE, readLE_writeLE n, writeLE_frame _ _ _ _ _ (by omega),
        if_pos rfl, hbyte, Nat.pow_succ, Nat.mul_comm (256 ^ n), Nat.mod_mul]

theorem readLE_lt : ∀ (n : Nat) (m : Mem) (a : Nat), readLE m a n < 256 ^ n
  | 0, _, _ => by simp [readLE]
  | n + 1, m, a => by
      have ih := readLE_lt n m (a + 1)
      have hb : (m a).toNat < 256 := (m a).toNat_lt
      rw [readLE, Nat.pow_succ]
      omega

/-! ## Signed integers -/

/-- The two's-complement `n`-byte integer at `a`. -/
def readSigned (m : Mem) (a n : Nat) : Int := (readLE m a n : Int).bmod (256 ^ n)

/-- Store the low `n` bytes of `v`. -/
def writeSigned (m : Mem) (a n : Nat) (v : Int) : Mem :=
  writeLE m a n (v % (256 ^ n : Nat)).toNat

theorem writeSigned_frame {m : Mem} {a n : Nat} {v : Int} {x : Nat}
    (h : x < a ∨ a + n ≤ x) : writeSigned m a n v x = m x :=
  writeLE_frame n m a _ x h

theorem readSigned_congr {m m' : Mem} {n a : Nat}
    (h : ∀ x, a ≤ x → x < a + n → m' x = m x) :
    readSigned m' a n = readSigned m a n := by
  rw [readSigned, readSigned, readLE_congr h]

/-- A signed store is read back modulo `256 ^ n`. -/
theorem readSigned_writeSigned (m : Mem) (a n : Nat) (v : Int) :
    readSigned (writeSigned m a n v) a n = v.bmod (256 ^ n) := by
  have hpos : (0 : Int) < (256 ^ n : Nat) := by positivity
  have hnn : 0 ≤ v % (256 ^ n : Nat) := Int.emod_nonneg _ (ne_of_gt hpos)
  have hlt : (v % (256 ^ n : Nat)).toNat < 256 ^ n := by
    have := Int.emod_lt_of_pos v hpos
    omega
  rw [readSigned, writeSigned, readLE_writeLE, Nat.mod_eq_of_lt hlt,
    Int.toNat_of_nonneg hnn, Int.emod_bmod]

/-- In range, a signed store is read back unchanged. -/
theorem readSigned_writeSigned_of_lt {m : Mem} {a n : Nat} {v : Int}
    (hlo : -(256 ^ n : Nat) ≤ 2 * v) (hhi : 2 * v < (256 ^ n : Nat)) :
    readSigned (writeSigned m a n v) a n = v := by
  rw [readSigned_writeSigned]
  exact Int.bmod_eq_of_le_mul_two (by omega) (by omega)

end OsProjects.Framework
