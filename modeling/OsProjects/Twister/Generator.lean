import OsProjects.Framework.Loops
import OsProjects.Framework.Machine
import OsProjects.Framework.XorShift

/-!
# The Mersenne Twister

`mt19937ar.c`, which `produce_consume.c` includes. `unsigned long` has `w` bits, 32 or
64 as the machine may be; every constant is below `2 ^ 32`.

`genrand_int32` makes new words `N` at a time, each in the place of the oldest one, in
three loops that differ in where they find the words they read.
-/

namespace OsProjects.Twister

open Framework

@[irreducible] def N : Nat := 624
@[irreducible] def M : Nat := 397

theorem one_lt_N : 1 < N := by
  unfold N
  decide

theorem M_pos : 0 < M := by
  unfold M
  decide

theorem M_lt_N : M < N := by
  unfold M N
  decide

/-- The static variables `mt` and `mti`; `mti = N + 1` stands for not initialised. -/
structure Gen (w : Nat) where
  mt : Nat → BitVec w
  mti : Nat

section Code

variable {w : Nat}

def MATRIX_A : BitVec w := BitVec.ofNat w 0x9908b0df
def UPPER_MASK : BitVec w := BitVec.ofNat w 0x80000000
def LOWER_MASK : BitVec w := BitVec.ofNat w 0x7fffffff

/-- `v & 0xffffffffUL` -/
def low32 (v : BitVec w) : BitVec w := v &&& BitVec.ofNat w 0xffffffff

/-- As the program is loaded. -/
def loaded : Gen w := ⟨fun _ => 0, N + 1⟩

/-! ## Initialisation -/

/-- `init_genrand` -/
def initGenrand (g : Gen w) (s : BitVec w) : Gen w :=
  let mt := Function.update g.mt 0 (low32 s)
  let mt := forLoop 1 N (fun mti mt =>
    Function.update mt mti (low32 (BitVec.ofNat w 1812433253 * xorShiftRight 30 (mt (mti - 1)) +
      BitVec.ofNat w mti))) mt
  ⟨mt, N⟩

/-- The variables of the loops in `init_by_array`. -/
structure Mix (w : Nat) where
  mt : Nat → BitVec w
  i : Nat
  j : Nat

/-- `i++`, and from the end of the array back to its second word. -/
def Mix.nextWord (s : Mix w) : Mix w :=
  if N ≤ s.i + 1 then { s with mt := Function.update s.mt 0 (s.mt (N - 1)), i := 1 }
  else { s with i := s.i + 1 }

/-- One round of the first loop. `none`: it reads past the end of the key. -/
def mixKey (key : List (BitVec w)) (s : Mix w) : Option (Mix w) :=
  match key[s.j]? with
  | none => none
  | some word =>
      let v := (s.mt s.i ^^^ (xorShiftRight 30 (s.mt (s.i - 1)) * BitVec.ofNat w 1664525)) +
        word + BitVec.ofNat w s.j
      let s := Mix.nextWord { s with mt := Function.update s.mt s.i (low32 v) }
      some { s with j := if key.length ≤ s.j + 1 then 0 else s.j + 1 }

/-- One round of the second loop. -/
def mixIndex (s : Mix w) : Mix w :=
  let v := (s.mt s.i ^^^ (xorShiftRight 30 (s.mt (s.i - 1)) * BitVec.ofNat w 1566083941)) -
    BitVec.ofNat w s.i
  Mix.nextWord { s with mt := Function.update s.mt s.i (low32 v) }

/-- `init_by_array` -/
def initByArray (g : Gen w) (key : List (BitVec w)) : Option (Gen w) := do
  let g := initGenrand g (BitVec.ofNat w 19650218)
  let s ← repeatLoop (mixKey key) (if N > key.length then N else key.length) ⟨g.mt, 1, 0⟩
  let s ← repeatLoop (fun s => some (mixIndex s)) (N - 1) s
  return ⟨Function.update s.mt 0 (BitVec.ofNat w 0x80000000), g.mti⟩

/-! ## Drawing a number -/

def mag01 : Nat → BitVec w
  | 0 => 0
  | _ => MATRIX_A

/-- A new word, from the word it replaces, the one after that, and the one `M` further on. -/
def twist (old succ far : BitVec w) : BitVec w :=
  let y := (old &&& UPPER_MASK) ||| (succ &&& LOWER_MASK)
  far ^^^ (y >>> 1) ^^^ mag01 (y &&& 1).toNat

def regenerate (mt : Nat → BitVec w) (kk succ far : Nat) : Nat → BitVec w :=
  Function.update mt kk (twist (mt kk) (mt succ) (mt far))

/-- The three loops that generate `N` words at one time. -/
def refill (mt : Nat → BitVec w) : Nat → BitVec w :=
  let mt := forLoop 0 (N - M) (fun kk mt => regenerate mt kk (kk + 1) (kk + M)) mt
  let mt := forLoop (N - M) (N - 1) (fun kk mt => regenerate mt kk (kk + 1) (kk + M - N)) mt
  regenerate mt (N - 1) 0 (M - 1)

def temper (y : BitVec w) : BitVec w :=
  let y := xorShiftRight 11 y
  let y := xorShiftLeft 7 (BitVec.ofNat w 0x9d2c5680) y
  let y := xorShiftLeft 15 (BitVec.ofNat w 0xefc60000) y
  xorShiftRight 18 y

/-- A generator that has not been initialised takes the default seed. -/
def seeded (g : Gen w) : Gen w :=
  if g.mti = N + 1 then initGenrand g (BitVec.ofNat w 5489) else g

/-- `genrand_int32` -/
def genrandInt32 (g : Gen w) : BitVec w × Gen w :=
  let g := if N ≤ g.mti then ⟨refill (seeded g).mt, 0⟩ else g
  (temper (g.mt g.mti), { g with mti := g.mti + 1 })

/-- `genrand_int31` -/
def genrandInt31 (g : Gen w) : BitVec w × Gen w :=
  let (y, g) := genrandInt32 g
  (y >>> 1, g)

/-! The functions that return a `double` compute with numbers of at most 53 bits and with
powers of two, so that nothing is rounded; `genrand_real1` divides by `2 ^ 32 - 1` and
is not of this kind. -/

/-- `genrand_real2` -/
def genrandReal2 (g : Gen w) : ℚ × Gen w :=
  let (y, g) := genrandInt32 g
  (y.toNat * (1 / 4294967296), g)

/-- `genrand_real3` -/
def genrandReal3 (g : Gen w) : ℚ × Gen w :=
  let (y, g) := genrandInt32 g
  ((y.toNat + 1 / 2) * (1 / 4294967296), g)

/-- `genrand_res53`; `a` is drawn before `b`. -/
def genrandRes53 (g : Gen w) : ℚ × Gen w :=
  let (a, g) := genrandInt32 g
  let (b, g) := genrandInt32 g
  (((a >>> 5).toNat * 67108864 + (b >>> 6).toNat) * (1 / 9007199254740992), g)

/-! ## Many calls -/

/-- The generator after `n` draws. -/
def after (g : Gen w) (n : Nat) : Gen w := (fun g => (genrandInt32 g).2)^[n] g

theorem after_succ (g : Gen w) (n : Nat) : after g (n + 1) = (genrandInt32 (after g n)).2 :=
  Function.iterate_succ_apply' _ n g

/-- What the draw after `n` others returns. -/
def output (g : Gen w) (n : Nat) : BitVec w := (genrandInt32 (after g n)).1

end Code

/-! ## Runs -/

inductive Call (w : Nat) where
  | seed (s : BitVec w)               -- `init_genrand`
  | key (ks : List (BitVec w))        -- `init_by_array`
  | draw                              -- `genrand_int32`

/-- The generator and the numbers drawn so far, latest first. -/
structure Trace (w : Nat) where
  gen : Gen w
  drawn : List (BitVec w)

def next {w : Nat} (t : Trace w) : Call w → Option (Trace w)
  | .seed s => some { t with gen := initGenrand t.gen s }
  | .key ks => (initByArray t.gen ks).map fun g => { t with gen := g }
  | .draw => some ⟨(genrandInt32 t.gen).2, (genrandInt32 t.gen).1 :: t.drawn⟩

def machine (w : Nat) : Machine (Trace w) (Call w) := ⟨fun t => t = ⟨loaded, []⟩, next⟩

end OsProjects.Twister
