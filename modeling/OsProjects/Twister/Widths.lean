import OsProjects.Framework.Simulation
import OsProjects.Twister.Generator

/-!
# `unsigned long` of 32 bits and of more

The generator is written for words of 32 bits and masks its sums and products to keep to
them on other machines. Where `unsigned long` is wider, the machine follows the one with
32 bits: `Wide` relates words of the same value, `Narrows` what is still to be masked.
Whatever calls are made, the numbers drawn are the same (`draws_width_independent`), and
they are in the range that each of the functions promises (`draws_in_range`).
-/

namespace OsProjects.Twister

open Framework

section Widths

variable {w : Nat}

/-! ## Words -/

/-- The same number. -/
def Wide (v : BitVec w) (v' : BitVec 32) : Prop := v.toNat = v'.toNat

/-- The same number once the bits from 32 on are masked. -/
def Narrows (v : BitVec w) (v' : BitVec 32) : Prop := v.toNat % 2 ^ 32 = v'.toNat

variable {v u : BitVec w} {v' u' : BitVec 32}

theorem Wide.narrows (h : Wide v v') : Narrows v v' := by
  rw [Narrows, show v.toNat = v'.toNat from h]
  exact Nat.mod_eq_of_lt v'.isLt

theorem narrows_setWidth (v : BitVec w) : Narrows v (v.setWidth 32) :=
  (BitVec.toNat_setWidth _ _).symm

theorem Wide.xor (h : Wide v v') (hu : Wide u u') : Wide (v ^^^ u) (v' ^^^ u') := by
  rw [Wide, BitVec.toNat_xor, BitVec.toNat_xor, show v.toNat = v'.toNat from h,
    show u.toNat = u'.toNat from hu]

theorem Wide.and (h : Wide v v') (hu : Wide u u') : Wide (v &&& u) (v' &&& u') := by
  rw [Wide, BitVec.toNat_and, BitVec.toNat_and, show v.toNat = v'.toNat from h,
    show u.toNat = u'.toNat from hu]

theorem Wide.or (h : Wide v v') (hu : Wide u u') : Wide (v ||| u) (v' ||| u') := by
  rw [Wide, BitVec.toNat_or, BitVec.toNat_or, show v.toNat = v'.toNat from h,
    show u.toNat = u'.toNat from hu]

theorem Wide.shiftRight (h : Wide v v') (k : Nat) : Wide (v >>> k) (v' >>> k) := by
  rw [Wide, BitVec.toNat_ushiftRight, BitVec.toNat_ushiftRight, show v.toNat = v'.toNat from h]

theorem Wide.xorShiftRight (h : Wide v v') (k : Nat) :
    Wide (xorShiftRight k v) (xorShiftRight k v') := h.xor (h.shiftRight k)

theorem Narrows.xor (h : Narrows v v') (hu : Narrows u u') : Narrows (v ^^^ u) (v' ^^^ u') := by
  rw [Narrows, BitVec.toNat_xor, BitVec.toNat_xor, Nat.xor_mod_two_pow,
    show v.toNat % 2 ^ 32 = v'.toNat from h, show u.toNat % 2 ^ 32 = u'.toNat from hu]

section Wider

variable (hw : 32 ≤ w)
include hw

theorem wide_ofNat {c : Nat} (hc : c < 2 ^ 32) : Wide (BitVec.ofNat w c) (BitVec.ofNat 32 c) := by
  have hle : 2 ^ 32 ≤ 2 ^ w := Nat.pow_le_pow_right (by decide) hw
  rw [Wide, BitVec.toNat_ofNat, BitVec.toNat_ofNat, Nat.mod_eq_of_lt hc,
    Nat.mod_eq_of_lt (by omega)]

theorem narrows_ofNat (c : Nat) : Narrows (BitVec.ofNat w c) (BitVec.ofNat 32 c) := by
  rw [Narrows, BitVec.toNat_ofNat, BitVec.toNat_ofNat, Nat.mod_mod_of_dvd _ (Nat.pow_dvd_pow 2 hw)]

theorem Narrows.add (h : Narrows v v') (hu : Narrows u u') : Narrows (v + u) (v' + u') := by
  rw [Narrows, BitVec.toNat_add, BitVec.toNat_add, Nat.mod_mod_of_dvd _ (Nat.pow_dvd_pow 2 hw),
    Nat.add_mod, show v.toNat % 2 ^ 32 = v'.toNat from h, show u.toNat % 2 ^ 32 = u'.toNat from hu]

theorem Narrows.mul (h : Narrows v v') (hu : Narrows u u') : Narrows (v * u) (v' * u') := by
  rw [Narrows, BitVec.toNat_mul, BitVec.toNat_mul, Nat.mod_mod_of_dvd _ (Nat.pow_dvd_pow 2 hw),
    Nat.mul_mod, show v.toNat % 2 ^ 32 = v'.toNat from h, show u.toNat % 2 ^ 32 = u'.toNat from hu]

theorem Narrows.sub (h : Narrows v v') (hu : Narrows u u') : Narrows (v - u) (v' - u') := by
  have hv : v.toNat % 2 ^ 32 = v'.toNat := h
  have hu : u.toNat % 2 ^ 32 = u'.toNat := hu
  obtain ⟨k, hk⟩ := Nat.pow_dvd_pow 2 hw
  have hlt := u.isLt
  rw [Narrows, BitVec.toNat_sub, BitVec.toNat_sub, Nat.mod_mod_of_dvd _ (Nat.pow_dvd_pow 2 hw)]
  omega

/-- Masking ends the difference. -/
theorem Narrows.low32 (h : Narrows v v') : Wide (low32 v) (low32 v') := by
  have hmask : (0xffffffff : Nat) = 2 ^ 32 - 1 := rfl
  have hle : 2 ^ 32 ≤ 2 ^ w := Nat.pow_le_pow_right (by decide) hw
  rw [Wide, Twister.low32, Twister.low32, BitVec.toNat_and, BitVec.toNat_and, BitVec.toNat_ofNat,
    BitVec.toNat_ofNat, Nat.mod_eq_of_lt (by omega), Nat.mod_eq_of_lt (by decide), hmask,
    Nat.and_two_pow_sub_one_eq_mod, Nat.and_two_pow_sub_one_eq_mod,
    show v.toNat % 2 ^ 32 = v'.toNat from h, Nat.mod_eq_of_lt v'.isLt]

/-- What is shifted out on the left was masked anyway. -/
theorem Wide.xorShiftLeft (h : Wide v v') (k : Nat) {c : Nat} (hc : c < 2 ^ 32) :
    Wide (xorShiftLeft k (BitVec.ofNat w c) v) (xorShiftLeft k (BitVec.ofNat 32 c) v') := by
  refine h.xor ?_
  have hmask : (BitVec.ofNat w c).toNat = (BitVec.ofNat 32 c).toNat := wide_ofNat hw hc
  rw [Wide, BitVec.toNat_and, BitVec.toNat_and, BitVec.toNat_shiftLeft, BitVec.toNat_shiftLeft,
    show v.toNat = v'.toNat from h, hmask]
  refine Nat.eq_of_testBit_eq fun i => ?_
  rw [Nat.testBit_and, Nat.testBit_and, Nat.testBit_mod_two_pow, Nat.testBit_mod_two_pow]
  by_cases hi : i < 32
  · rw [decide_eq_true hi, decide_eq_true (show i < w by omega)]
  · have hhigh : (BitVec.ofNat 32 c).toNat.testBit i = false :=
      BitVec.getLsbD_of_ge _ i (by omega)
    rw [hhigh, Bool.and_false, Bool.and_false]

theorem Wide.temper (h : Wide v v') : Wide (temper v) (temper v') :=
  ((((h.xorShiftRight 11).xorShiftLeft hw 7 (by decide)).xorShiftLeft hw 15
    (by decide)).xorShiftRight 18)

theorem Wide.twist {a b c : BitVec w} {a' b' c' : BitVec 32} (ha : Wide a a') (hb : Wide b b')
    (hc : Wide c c') : Wide (twist a b c) (twist a' b' c') := by
  have hy := (ha.and (wide_ofNat hw (show 0x80000000 < 2 ^ 32 by decide))).or
    (hb.and (wide_ofNat hw (show 0x7fffffff < 2 ^ 32 by decide)))
  have hlow := hy.and (wide_ofNat hw (show 1 < 2 ^ 32 by decide))
  have hmag (n n' : Nat) (hn : n = n') : Wide (mag01 n : BitVec w) (mag01 n') := by
    subst hn
    cases n with
    | zero => exact wide_ofNat hw (by decide)
    | succ n => exact wide_ofNat hw (by decide)
  exact (hc.xor (hy.shiftRight 1)).xor (hmag _ _ hlow)

/-! ## The array -/

/-- Word for word the same numbers. -/
def WideArray (mt : Nat → BitVec w) (mt' : Nat → BitVec 32) : Prop := ∀ i, Wide (mt i) (mt' i)

omit hw in
theorem WideArray.update {mt : Nat → BitVec w} {mt' : Nat → BitVec 32} (h : WideArray mt mt')
    (i : Nat) (hv : Wide v v') : WideArray (Function.update mt i v) (Function.update mt' i v') := by
  intro j
  by_cases hj : j = i
  · rw [hj, Function.update_self, Function.update_self]
    exact hv
  · rw [Function.update_of_ne hj, Function.update_of_ne hj]
    exact h j

theorem WideArray.refill {mt : Nat → BitVec w} {mt' : Nat → BitVec 32} (h : WideArray mt mt') :
    WideArray (refill mt) (refill mt') := by
  have hone {mt : Nat → BitVec w} {mt' : Nat → BitVec 32} (h : WideArray mt mt')
      (kk succ far : Nat) : WideArray (regenerate mt kk succ far) (regenerate mt' kk succ far) :=
    h.update kk ((h kk).twist hw (h succ) (h far))
  refine hone (forLoop_rel (R := WideArray) (forLoop_rel (R := WideArray) h ?_) ?_) _ _ _
  · exact fun kk mt mt' _ _ h => hone h _ _ _
  · exact fun kk mt mt' _ _ h => hone h _ _ _

/-- The two generators are at the same place. -/
structure SameGen (g : Gen w) (g' : Gen 32) : Prop where
  mti : g.mti = g'.mti
  mt : WideArray g.mt g'.mt

theorem SameGen.initGenrand {g : Gen w} {g' : Gen 32} (h : SameGen g g') (hs : Narrows v v') :
    SameGen (initGenrand g v) (initGenrand g' v') := by
  refine ⟨rfl, forLoop_rel (R := WideArray) (h.mt.update 0 (hs.low32 hw)) ?_⟩
  intro k mt mt' _ _ hmt
  refine hmt.update k (Narrows.low32 hw (.add hw (.mul hw (narrows_ofNat hw _) ?_)
    (narrows_ofNat hw _)))
  exact ((hmt (k - 1)).xorShiftRight 30).narrows

theorem SameGen.seeded {g : Gen w} {g' : Gen 32} (h : SameGen g g') :
    SameGen (seeded g) (seeded g') := by
  unfold Twister.seeded
  rw [h.mti]
  split
  · exact h.initGenrand hw (narrows_ofNat hw _)
  · exact h

theorem SameGen.draw {g : Gen w} {g' : Gen 32} (h : SameGen g g') :
    Wide (genrandInt32 g).1 (genrandInt32 g').1 ∧
      SameGen (genrandInt32 g).2 (genrandInt32 g').2 := by
  unfold genrandInt32
  rw [h.mti]
  split
  · have hmt := (h.seeded hw).mt.refill hw
    exact ⟨(hmt 0).temper hw, rfl, hmt⟩
  · dsimp only
    rw [h.mti]
    exact ⟨(h.mt _).temper hw, rfl, h.mt⟩

/-! ## `init_by_array` -/

structure SameMix (s : Mix w) (s' : Mix 32) : Prop where
  i : s.i = s'.i
  j : s.j = s'.j
  mt : WideArray s.mt s'.mt

omit hw in
theorem SameMix.store {s : Mix w} {s' : Mix 32} (h : SameMix s s') (hv : Wide v v') :
    SameMix { s with mt := Function.update s.mt s.i v }
      { s' with mt := Function.update s'.mt s'.i v' } := by
  refine ⟨h.i, h.j, ?_⟩
  dsimp only
  rw [h.i]
  exact h.mt.update s'.i hv

omit hw in
theorem SameMix.nextWord {s : Mix w} {s' : Mix 32} (h : SameMix s s') :
    SameMix s.nextWord s'.nextWord := by
  unfold Mix.nextWord
  rw [h.i]
  split
  · exact ⟨rfl, h.j, h.mt.update 0 (h.mt _)⟩
  · exact ⟨rfl, h.j, h.mt⟩

/-- The part that the two loops have in common. -/
theorem SameMix.mixed {s : Mix w} {s' : Mix 32} (h : SameMix s s') (c : Nat) :
    Narrows (s.mt s.i ^^^ (xorShiftRight 30 (s.mt (s.i - 1)) * BitVec.ofNat w c))
      (s'.mt s'.i ^^^ (xorShiftRight 30 (s'.mt (s'.i - 1)) * BitVec.ofNat 32 c)) := by
  rw [h.i]
  refine (h.mt _).narrows.xor (.mul hw ?_ (narrows_ofNat hw c))
  exact ((h.mt _).xorShiftRight 30).narrows

theorem SameMix.mixKey {s : Mix w} {s' : Mix 32} (h : SameMix s s') (key : List (BitVec w)) :
    Option.Rel SameMix (mixKey key s) (mixKey (key.map (BitVec.setWidth 32)) s') := by
  obtain ⟨mt, i, j⟩ := s
  obtain ⟨mt', i', j'⟩ := s'
  obtain rfl : i = i' := h.i
  obtain rfl : j = j' := h.j
  unfold Twister.mixKey
  rw [List.getElem?_map, List.length_map]
  cases key[j]? with
  | none => exact .none
  | some word =>
      have hv := Narrows.add hw ((h.mixed hw 1664525).add hw (narrows_setWidth word))
        (narrows_ofNat hw j)
      have hnext := (h.store (hv.low32 hw)).nextWord
      refine .some ⟨hnext.i, ?_, hnext.mt⟩
      dsimp only
      rw [hnext.j]

theorem SameMix.mixIndex {s : Mix w} {s' : Mix 32} (h : SameMix s s') :
    SameMix (mixIndex s) (mixIndex s') := by
  refine (h.store (Narrows.low32 hw (.sub hw (h.mixed hw 1566083941) ?_))).nextWord
  rw [h.i]
  exact narrows_ofNat hw s'.i

theorem SameGen.initByArray {g : Gen w} {g' : Gen 32} (h : SameGen g g') (key : List (BitVec w)) :
    Option.Rel SameGen (initByArray g key) (initByArray g' (key.map (BitVec.setWidth 32))) := by
  have hg := h.initGenrand hw (narrows_ofNat hw 19650218)
  unfold Twister.initByArray
  rw [List.length_map]
  refine rel_bind (repeatLoop_rel (R := SameMix) (fun s s' h => h.mixKey hw key)
    ⟨rfl, rfl, hg.mt⟩) fun s s' hs => ?_
  refine rel_bind (repeatLoop_rel (R := SameMix) (fun s s' h => .some (h.mixIndex hw)) hs)
    fun t t' ht => ?_
  exact .some ⟨hg.mti, ht.mt.update 0 (wide_ofNat hw (by decide))⟩

/-! ## Runs -/

/-- The call with its arguments taken modulo `2 ^ 32`. -/
def Call.narrow : Call w → Call 32
  | .seed s => .seed (s.setWidth 32)
  | .key ks => .key (ks.map (BitVec.setWidth 32))
  | .draw => .draw

structure SameTrace (t : Trace w) (t' : Trace 32) : Prop where
  gen : SameGen t.gen t'.gen
  drawn : t.drawn.map BitVec.toNat = t'.drawn.map BitVec.toNat

theorem SameTrace.next {t : Trace w} {t' : Trace 32} (h : SameTrace t t') (a : Call w) :
    Option.Rel SameTrace (next t a) (next t' a.narrow) := by
  cases a with
  | seed s => exact .some ⟨h.gen.initGenrand hw (narrows_setWidth s), h.drawn⟩
  | key ks =>
      have hkey := h.gen.initByArray hw ks
      unfold Twister.next Call.narrow
      dsimp only
      generalize initByArray t.gen ks = o, initByArray t'.gen _ = o' at hkey
      cases hkey with
      | none => exact .none
      | some hg => exact .some ⟨hg, h.drawn⟩
  | draw =>
      obtain ⟨hy, hg⟩ := h.gen.draw hw
      refine .some ⟨hg, ?_⟩
      rw [List.map_cons, List.map_cons, h.drawn, show BitVec.toNat _ = _ from hy]

theorem sameTrace_loaded : SameTrace (⟨loaded, []⟩ : Trace w) ⟨loaded, []⟩ :=
  ⟨⟨rfl, fun _ => wide_ofNat hw (by decide)⟩, rfl⟩

end Wider

end Widths

/-- **The width of `unsigned long` does not show.** A program that makes the same calls on
two machines draws the same numbers. -/
theorem draws_width_independent (w : Nat) (hw : 32 ≤ w) (calls : List (Call w)) :
    ((machine w).replay ⟨loaded, []⟩ calls).map (fun t => t.drawn.map BitVec.toNat) =
      ((machine 32).replay ⟨loaded, []⟩ (calls.map Call.narrow)).map
        (fun t => t.drawn.map BitVec.toNat) := by
  have h : Option.Rel SameTrace ((machine w).replay ⟨loaded, []⟩ calls)
      ((machine 32).replay ⟨loaded, []⟩ (calls.map Call.narrow)) :=
    Machine.replay_rel (fun t t' a ht => SameTrace.next hw ht a) (sameTrace_loaded hw)
  generalize (machine w).replay _ calls = o, (machine 32).replay _ _ = o' at h
  cases h with
  | none => rfl
  | some h => exact congrArg some h.drawn

theorem draws_width_independent_seeded :
    ((machine 64).replay ⟨loaded, []⟩ [.seed (2 ^ 32 + 1), .draw]).map
        (fun t => t.drawn.map BitVec.toNat) =
      ((machine 32).replay ⟨loaded, []⟩ [.seed 1, .draw]).map
        (fun t => t.drawn.map BitVec.toNat) :=
  draws_width_independent 64 (by decide) [.seed (2 ^ 32 + 1), .draw]

/-! ## Ranges -/

section Ranges

variable {w : Nat}

theorem reach_sameGen (hw : 32 ≤ w) {t : Trace w} (ht : (machine w).Reach t) :
    ∃ g : Gen 32, SameGen t.gen g := by
  obtain ⟨t', hsame⟩ : ∃ t' : Trace 32, SameTrace t t' := by
    refine @Machine.ReachVia.invariant _ _ _ _ (fun t => ∃ t' : Trace 32, SameTrace t t') ?_ ?_ t ht
    · intro t h0
      obtain rfl : t = ⟨loaded, []⟩ := h0
      exact ⟨_, sameTrace_loaded hw⟩
    · rintro t a s ⟨t', h⟩ - hn
      have hrel := h.next hw a
      rw [show next t a = some s from hn] at hrel
      generalize next t' a.narrow = o at hrel
      cases hrel with
      | some h' => exact ⟨_, h'⟩
  exact ⟨_, hsame.gen⟩

theorem SameGen.draw_lt (hw : 32 ≤ w) {g : Gen w} {g' : Gen 32} (h : SameGen g g') :
    (genrandInt32 g).1.toNat < 2 ^ 32 := by
  rw [(h.draw hw).1]
  exact (genrandInt32 g').1.isLt

/-- `n` steps of `1 / m`, and `n < m` of them. -/
theorem unit_interval {n m : Nat} (h : n < m) : 0 ≤ (n : ℚ) * (1 / m) ∧ (n : ℚ) * (1 / m) < 1 := by
  have hm : (0 : ℚ) < m := by exact_mod_cast Nat.zero_lt_of_lt h
  refine ⟨by positivity, ?_⟩
  rw [mul_one_div, div_lt_one hm]
  exact_mod_cast h

end Ranges

/-- **Each function keeps to its interval**: `[0, 2 ^ 32)`, `[0, 2 ^ 31)`, `[0, 1)`, `(0, 1)`
and `[0, 1)`, whatever the width and after any calls. -/
theorem draws_in_range (w : Nat) (hw : 32 ≤ w) (t : Trace w) (ht : (machine w).Reach t) :
    (genrandInt32 t.gen).1.toNat < 2 ^ 32 ∧ (genrandInt31 t.gen).1.toNat < 2 ^ 31 ∧
    (0 ≤ (genrandReal2 t.gen).1 ∧ (genrandReal2 t.gen).1 < 1) ∧
    (0 < (genrandReal3 t.gen).1 ∧ (genrandReal3 t.gen).1 < 1) ∧
    (0 ≤ (genrandRes53 t.gen).1 ∧ (genrandRes53 t.gen).1 < 1) := by
  obtain ⟨g, hg⟩ := reach_sameGen hw ht
  have hy := hg.draw_lt hw
  have hz := (hg.draw hw).2.draw_lt hw
  generalize hdraw : (genrandInt32 t.gen).1.toNat = y at hy
  generalize hdraw' : (genrandInt32 (genrandInt32 t.gen).2).1.toNat = z at hz
  have hint31 : (genrandInt31 t.gen).1.toNat = y >>> 1 := by
    rw [← hdraw]
    exact BitVec.toNat_ushiftRight _ _
  have hreal2 : (genrandReal2 t.gen).1 = y * (1 / 4294967296) := by
    rw [← hdraw]
    rfl
  have hreal3 : (genrandReal3 t.gen).1 = (y + 1 / 2) * (1 / 4294967296) := by
    rw [← hdraw]
    rfl
  have hres53 : (genrandRes53 t.gen).1 =
      ((y >>> 5 : Nat) * 67108864 + (z >>> 6 : Nat)) * (1 / 9007199254740992) := by
    rw [← hdraw, ← hdraw', ← BitVec.toNat_ushiftRight, ← BitVec.toNat_ushiftRight]
    rfl
  refine ⟨hy, ?_, ?_, ?_, ?_⟩
  · rw [hint31, Nat.shiftRight_eq_div_pow]
    omega
  · have := unit_interval hy
    rw [hreal2]
    exact_mod_cast this
  · have hq : (y : ℚ) + 1 ≤ 4294967296 := by exact_mod_cast hy
    have h0 : (0 : ℚ) ≤ y := Nat.cast_nonneg y
    rw [hreal3]
    constructor <;> linarith
  · have hsum : y >>> 5 * 67108864 + z >>> 6 < 9007199254740992 := by
      rw [Nat.shiftRight_eq_div_pow, Nat.shiftRight_eq_div_pow]
      omega
    have := unit_interval hsum
    rw [hres53]
    exact_mod_cast this

theorem draws_in_range_seeded : (machine 64).Reach ⟨initGenrand loaded 5489, []⟩ ∧
    0 < (genrandReal3 (initGenrand loaded 5489 : Gen 64)).1 ∧
    (genrandReal3 (initGenrand loaded 5489 : Gen 64)).1 < 1 := by
  have hinit : (machine 64).Reach ⟨loaded, []⟩ := .init rfl
  have hreach : (machine 64).Reach ⟨initGenrand loaded 5489, []⟩ :=
    Machine.ReachVia.step (a := Call.seed 5489) hinit trivial rfl
  exact ⟨hreach, (draws_in_range 64 (by decide) ⟨initGenrand loaded 5489, []⟩ hreach).2.2.2.1⟩

end OsProjects.Twister
