import OsProjects.Twister.Stream

/-!
# Runs of the generator

Of the `N` words that the generator works on, the low 31 bits of the oldest are never
read: what is left are `32 * 624 - 31 = 19937` bits. A step on these can be undone
(`twist_eq_iff`), so the words come back to where they started, and no run ends in the
state with all bits zero, in which only zeros would be drawn, unless it starts there.
Neither way of initialising the generator does (`reach_live`), and the numbers drawn
repeat after fewer than `2 ^ 19937` draws (`output_periodic`).
-/

namespace OsProjects.Twister

open Framework

/-! ## One step, forwards and backwards -/

/-- The upper bit of one word and the lower bits of another. -/
def joined (a b : BitVec 32) : BitVec 32 := (a &&& UPPER_MASK) ||| (b &&& LOWER_MASK)

theorem getLsbD_joined (a b : BitVec 32) (i : Nat) :
    (joined a b).getLsbD i = if i < 31 then b.getLsbD i else decide (i = 31) && a.getLsbD i := by
  have hupper : (UPPER_MASK : BitVec 32).getLsbD i = decide (i = 31) := by
    rw [UPPER_MASK, BitVec.getLsbD_ofNat, show (0x80000000 : Nat) = 2 ^ 31 by rfl,
      Nat.testBit_two_pow]
    grind
  have hlower : (LOWER_MASK : BitVec 32).getLsbD i = decide (i < 31) := by
    rw [LOWER_MASK, BitVec.getLsbD_ofNat, show (0x7fffffff : Nat) = 2 ^ 31 - 1 by rfl,
      Nat.testBit_two_pow_sub_one]
    grind
  rw [joined, BitVec.getLsbD_or, BitVec.getLsbD_and, BitVec.getLsbD_and, hupper, hlower]
  grind

theorem joined_eq_iff {a a' b b' : BitVec 32} :
    joined a b = joined a' b' ↔
      a.getLsbD 31 = a'.getLsbD 31 ∧ ∀ i < 31, b.getLsbD i = b'.getLsbD i := by
  constructor
  · intro h
    have hbit (i : Nat) := congrArg (BitVec.getLsbD · i) h
    simp only [getLsbD_joined] at hbit
    refine ⟨by simpa using hbit 31, fun i hi => ?_⟩
    have := hbit i
    rwa [if_pos hi, if_pos hi] at this
  · rintro ⟨htop, hlow⟩
    refine BitVec.eq_of_getLsbD_eq fun i _ => ?_
    rw [getLsbD_joined, getLsbD_joined]
    grind

theorem twist_eq (a b c : BitVec 32) :
    twist a b c =
      c ^^^ ((joined a b >>> 1) ^^^ if (joined a b).getLsbD 0 then MATRIX_A else 0) := by
  have hmag : (mag01 (joined a b &&& 1).toNat : BitVec 32) =
      if (joined a b).getLsbD 0 then MATRIX_A else 0 := by
    rw [show joined a b &&& 1 = _ from BitVec.and_one_eq_setWidth_ofBool_getLsbD]
    cases (joined a b).getLsbD 0 <;> rfl
  rw [twist, ← joined, hmag, BitVec.xor_assoc]

/-- **A step can be undone**, as far as the bits are concerned that it reads. -/
theorem twist_eq_iff {a a' b b' c : BitVec 32} :
    twist a b c = twist a' b' c ↔
      a.getLsbD 31 = a'.getLsbD 31 ∧ ∀ i < 31, b.getLsbD i = b'.getLsbD i := by
  rw [← joined_eq_iff, twist_eq, twist_eq, BitVec.xor_right_inj]
  constructor
  · intro h
    -- the top bit of a shifted word is clear and that of `MATRIX_A` is set
    have hlow : (joined a b).getLsbD 0 = (joined a' b').getLsbD 0 := by
      have htop := congrArg (BitVec.getLsbD · 31) h
      simp only [BitVec.getLsbD_xor, BitVec.getLsbD_ushiftRight] at htop
      rw [BitVec.getLsbD_of_ge _ (1 + 31) (by decide), BitVec.getLsbD_of_ge _ (1 + 31) (by decide),
        Bool.false_xor, Bool.false_xor] at htop
      revert htop
      cases (joined a b).getLsbD 0 <;> cases (joined a' b').getLsbD 0 <;> decide
    rw [hlow, BitVec.xor_left_inj] at h
    refine BitVec.eq_of_getLsbD_eq fun i _ => ?_
    cases i with
    | zero => exact hlow
    | succ i =>
        have hbit := congrArg (BitVec.getLsbD · i) h
        simpa [Nat.add_comm] using hbit
  · intro h
    rw [h]

/-! ## The bits that matter -/

/-- Not all of the bits that the next words depend on are zero. -/
def Live (x : Nat → BitVec 32) (k : Nat) : Prop :=
  (x k).getLsbD 31 = true ∨ ∃ i, 0 < i ∧ i < N ∧ x (k + i) ≠ 0

/-- The bits that the words after `k` depend on: the upper bit of word `k`, and the `N - 1`
words after it. -/
def bits (x : Nat → BitVec 32) (k : Nat) : Bool × (Fin (N - 1) → Fin (2 ^ 32)) :=
  ((x k).getLsbD 31, fun i => (x (k + (i + 1))).toFin)

section Sequence

variable {x y : Nat → BitVec 32} {k l : Nat}

theorem bits_eq_iff : bits x k = bits y l ↔
    (x k).getLsbD 31 = (y l).getLsbD 31 ∧ ∀ i, 0 < i → i < N → x (k + i) = y (l + i) := by
  rw [bits, bits, Prod.mk.injEq, funext_iff]
  refine and_congr_right fun _ => ⟨fun h i hpos hi => ?_, fun h i => ?_⟩
  · obtain ⟨j, rfl⟩ := Nat.exists_eq_add_of_lt hpos
    rw [Nat.zero_add] at hi ⊢
    exact BitVec.toFin_inj.mp (h ⟨j, by omega⟩)
  · exact congrArg BitVec.toFin (h (i + 1) (by omega) (by omega))

theorem bits_eq_zero_iff : bits x k = (false, fun _ => 0) ↔ ¬ Live x k := by
  rw [bits, Prod.mk.injEq, funext_iff, Live, not_or, Bool.not_eq_true]
  refine and_congr_right fun _ => ⟨?_, fun h i => ?_⟩
  · rintro h ⟨i, hpos, hi, hne⟩
    obtain ⟨j, rfl⟩ := Nat.exists_eq_add_of_lt hpos
    rw [Nat.zero_add] at hi hne
    exact hne (BitVec.toFin_inj.mp (h ⟨j, by omega⟩))
  · by_contra hne
    exact h ⟨i + 1, by omega, by omega, fun h0 => hne (by rw [h0]; rfl)⟩

/-- Words from the same bits are the same. -/
theorem bits_succ (hx : Follows twist N M x) (hy : Follows twist N M y)
    (h : bits x k = bits y l) :
    bits x (k + 1) = bits y (l + 1) := by
  have hone := one_lt_N
  have hpos := M_pos
  have hlt := M_lt_N
  rw [bits_eq_iff] at h ⊢
  obtain ⟨htop, hrest⟩ := h
  have hnew : x (k + N) = y (l + N) := by
    rw [hx, hy, ← hrest M hpos hlt, ← hrest 1 Nat.one_pos hone, twist_eq_iff]
    exact ⟨htop, fun _ _ => rfl⟩
  refine ⟨by rw [hrest 1 Nat.one_pos hone], fun i hi0 hi => ?_⟩
  rw [Nat.add_assoc, Nat.add_assoc, Nat.add_comm 1 i]
  by_cases hlast : i + 1 = N
  · rw [hlast]
    exact hnew
  · exact hrest (i + 1) (by omega) (by omega)

/-- The bits before are known from the bits after. -/
theorem bits_pred (hx : Follows twist N M x) (hy : Follows twist N M y)
    (h : bits x (k + 1) = bits y (l + 1)) :
    bits x k = bits y l := by
  have hone := one_lt_N
  have hpos := M_pos
  have hlt := M_lt_N
  rw [bits_eq_iff] at h ⊢
  obtain ⟨htop, hrest⟩ := h
  -- all but the word just after `k` is there already
  have hlater : ∀ i, 1 < i → i ≤ N → x (k + i) = y (l + i) := by
    intro i hi hle
    obtain ⟨j, rfl⟩ := Nat.exists_eq_add_of_lt hi
    have := hrest (j + 1) (by omega) (by omega)
    rwa [Nat.add_assoc, Nat.add_assoc] at this
  have hM : x (k + M) = y (l + M) := hlater M (by unfold M; decide) hlt.le
  have htwist : twist (x k) (x (k + 1)) (x (k + M)) = twist (y l) (y (l + 1)) (x (k + M)) := by
    rw [← hx, hM, ← hy]
    exact hlater N hone (Nat.le_refl N)
  obtain ⟨hupper, hlower⟩ := twist_eq_iff.mp htwist
  refine ⟨hupper, fun i hi0 hi => ?_⟩
  by_cases h1 : i = 1
  · rw [h1]
    refine BitVec.eq_of_getLsbD_eq fun j hj => ?_
    by_cases hj31 : j < 31
    · exact hlower j hj31
    · obtain rfl : j = 31 := by omega
      exact htop
  · exact hlater i (by omega) (by omega)

theorem follows_zero : Follows twist N M fun _ => (0 : BitVec 32) := fun _ =>
  show (0 : BitVec 32) = twist 0 0 0 by decide

theorem bits_zero (k : Nat) : bits (fun _ => 0) k = (false, fun _ => 0) :=
  bits_eq_zero_iff.mpr (by simp [Live])

/-- **A run does not die**: the bits do not all become zero. -/
theorem Live.succ (hx : Follows twist N M x) (h : Live x k) : Live x (k + 1) := by
  by_contra hdead
  have hbits : bits x (k + 1) = bits (fun _ => 0) (k + 1) := by
    rw [bits_eq_zero_iff.mpr hdead, bits_zero]
  refine bits_eq_zero_iff.mp ?_ h
  rw [bits_pred hx follows_zero hbits, bits_zero]

theorem Live.add (hx : Follows twist N M x) (h : Live x k) (n : Nat) : Live x (k + n) := by
  induction n with
  | zero => exact h
  | succ n ih => exact ih.succ hx

theorem card_bits : Fintype.card (Bool × (Fin (N - 1) → Fin (2 ^ 32))) = 2 ^ 19937 := by
  have hbits : 32 * (N - 1) + 1 = 19937 := by
    unfold N
    rfl
  rw [Fintype.card_prod, Fintype.card_bool, Fintype.card_fun, Fintype.card_fin, Fintype.card_fin,
    ← Nat.pow_mul, ← Nat.pow_succ', ← hbits]

/-- **The words come back**, after fewer than `2 ^ 19937` of them. -/
theorem Live.exists_period (hx : Follows twist N M x) (h : Live x 0) :
    ∃ T, 0 < T ∧ T < 2 ^ 19937 ∧ ∀ k, 0 < k → x (k + T) = x k := by
  have hlive (k : Nat) : Live x k := by
    have := h.add hx k
    rwa [Nat.zero_add] at this
  -- the zero state is not among those that are visited
  let e (k : Nat) : {b : Bool × (Fin (N - 1) → Fin (2 ^ 32)) // b ≠ (false, fun _ => 0)} :=
    ⟨bits x k, fun h0 => bits_eq_zero_iff.mp h0 (hlive k)⟩
  have he (k l : Nat) : e k = e l ↔ bits x k = bits x l := Subtype.mk_eq_mk
  obtain ⟨T, hpos, hle, hT⟩ := Framework.exists_period (e := e)
    (fun k l hkl => (he _ _).mpr (bits_succ hx hx ((he _ _).mp hkl)))
    (fun k l hkl => (he _ _).mpr (bits_pred hx hx ((he _ _).mp hkl)))
  refine ⟨T, hpos, ?_, fun k hk => ?_⟩
  · refine hle.trans_lt ?_
    rw [← card_bits]
    exact Fintype.card_subtype_lt (x := (false, fun _ => 0)) (not_not_intro rfl)
  · obtain ⟨j, rfl⟩ := Nat.exists_eq_add_of_lt hk
    have := (bits_eq_iff.mp ((he _ _).mp (hT j))).2 1 Nat.one_pos one_lt_N
    rw [Nat.zero_add, Nat.add_right_comm]
    exact this

end Sequence

/-! ## Whole runs -/

/-- What every call leaves behind. -/
structure Running (g : Gen 32) : Prop where
  pos : 0 < g.mti
  le : g.mti ≤ N
  live : Live g.mt 0

theorem live_of_window {x mt : Nat → BitVec 32} {b : Nat} (hw : Window x N (N * b) mt)
    (h : Live x (N * b)) : Live mt 0 := by
  have hone := one_lt_N
  have hread (i : Nat) (hi : i < N) : mt i = x (N * b + i) := hw.read hi (by omega) (by omega)
  refine h.imp (fun htop => ?_) fun ⟨i, hpos, hi, hne⟩ => ⟨i, hpos, hi, ?_⟩
  · rw [hread 0 (by omega)]
    exact htop
  · rw [Nat.zero_add, hread i hi]
    exact hne

theorem live_words {mt : Nat → BitVec 32} (h : Live mt 0) : Live (words mt) 0 := by
  have hone := one_lt_N
  refine h.imp (fun htop => ?_) fun ⟨i, hpos, hi, hne⟩ => ⟨i, hpos, hi, ?_⟩
  · rw [words_of_lt (by omega)]
    exact htop
  · rw [words_of_lt (by omega)]
    exact hne

theorem Running.draw {g : Gen 32} (h : Running g) : Running (genrandInt32 g).2 := by
  have hx := follows_words g.mt
  obtain ⟨-, hle, b, -, hw⟩ := (tracks_words h.le).draw hx
  refine ⟨Nat.succ_pos _, hle, live_of_window hw ?_⟩
  have := (live_words h.live).add hx (N * b)
  rwa [Nat.zero_add] at this

/-- What the loop of `init_genrand` computes. -/
theorem initGenrand_spec {w : Nat} (g : Gen w) (s : BitVec w) :
    (initGenrand g s).mt 0 = low32 s ∧ ∀ k, 0 < k → k < N → (initGenrand g s).mt k =
      low32 (BitVec.ofNat w 1812433253 * xorShiftRight 30 ((initGenrand g s).mt (k - 1)) +
        BitVec.ofNat w k) := by
  refine forLoop_invariant (P := fun k (mt : Nat → BitVec w) => mt 0 = low32 s ∧
      ∀ i, 0 < i → i < k → mt i =
        low32 (BitVec.ofNat w 1812433253 * xorShiftRight 30 (mt (i - 1)) + BitVec.ofNat w i))
    one_lt_N.le ⟨Function.update_self _ _ _, by omega⟩ ?_
  rintro k mt hlo - ⟨h0, hrest⟩
  refine ⟨by rw [Function.update_of_ne (by omega), h0], fun i hpos hi => ?_⟩
  rw [Function.update_of_ne (show i - 1 ≠ k by omega)]
  by_cases hik : i = k
  · rw [hik, Function.update_self]
  · rw [Function.update_of_ne hik]
    exact hrest i hpos (by omega)

/-- Whatever the seed, one of the second and the third word is not zero. -/
theorem running_initGenrand (g : Gen 32) (s : BitVec 32) : Running (initGenrand g s) := by
  have hN : 2 < N := by
    unfold N
    decide
  have hrest := (initGenrand_spec g s).2
  refine ⟨show 0 < N by omega, Nat.le_refl N, .inr ?_⟩
  by_cases h1 : (initGenrand g s).mt 1 = 0
  · refine ⟨2, by decide, hN, ?_⟩
    rw [Nat.zero_add, hrest 2 (by decide) hN, h1]
    decide
  · exact ⟨1, by decide, by omega, h1⟩

theorem running_initByArray {g g' : Gen 32} {ks : List (BitVec 32)}
    (h : initByArray g ks = some g') : Running g' := by
  have hone := one_lt_N
  rw [initByArray] at h
  simp only [Option.bind_eq_bind, Option.bind_eq_some_iff, Option.pure_def,
    Option.some.injEq] at h
  obtain ⟨s, -, s', -, rfl⟩ := h
  have htop : Function.update s'.mt 0 (BitVec.ofNat 32 0x80000000) 0 = BitVec.ofNat 32 0x80000000 :=
    Function.update_self _ _ _
  refine ⟨show 0 < N by omega, Nat.le_refl N, .inl ?_⟩
  dsimp only
  rw [htop]
  decide

/-- `init_by_array` stays within its key, unless there is none. -/
theorem initByArray_isSome_iff {w : Nat} (g : Gen w) (key : List (BitVec w)) :
    (initByArray g key).isSome ↔ key ≠ [] := by
  constructor
  · rintro h rfl
    have hfail (n : Nat) (s : Mix w) : repeatLoop (mixKey []) (n + 1) s = none := rfl
    obtain ⟨n, hn⟩ := Nat.exists_eq_add_of_lt (Nat.zero_lt_of_lt one_lt_N)
    rw [initByArray, List.length_nil, if_pos (by omega), hn, hfail] at h
    cases h
  · intro hkey
    have hlen : 0 < key.length := List.length_pos_of_ne_nil hkey
    -- `j` goes round the key
    have hround : ∀ s : Mix w, s.j < key.length →
        ∃ s', mixKey key s = some s' ∧ s'.j < key.length := by
      intro s hj
      rw [mixKey, List.getElem?_eq_getElem hj]
      refine ⟨_, rfl, ?_⟩
      dsimp only
      split <;> omega
    obtain ⟨s, hs, -⟩ : ∃ s, repeatLoop (mixKey key) (if N > key.length then N else key.length)
        ⟨(initGenrand g (BitVec.ofNat w 19650218)).mt, 1, 0⟩ = some s ∧ s.j < key.length :=
      repeatLoop_invariant hround hlen
    obtain ⟨s', hs', -⟩ :
        ∃ s', repeatLoop (fun s => some (mixIndex s)) (N - 1) s = some s' ∧ True :=
      repeatLoop_invariant (fun s _ => ⟨_, rfl, trivial⟩) trivial
    rw [initByArray, hs, Option.bind_eq_bind, Option.bind_some, hs']
    rfl

theorem running_seeded {g : Gen 32} (h : g.mti = N + 1 ∨ Running g) : Running (seeded g) := by
  rcases h with h | h
  · rw [seeded, if_pos h]
    exact running_initGenrand g _
  · have := h.le
    rw [seeded, if_neg (by omega)]
    exact h

theorem reach_running {t : Trace 32} (ht : (machine 32).Reach t) :
    t.gen.mti = N + 1 ∨ Running t.gen := by
  refine @Machine.ReachVia.invariant _ _ _ _ (fun t => t.gen.mti = N + 1 ∨ Running t.gen) ?_ ?_
    t ht
  · intro t h0
    obtain rfl : t = ⟨loaded, []⟩ := h0
    exact .inl rfl
  · intro t a t' h _ hn
    change next t a = some t' at hn
    cases a with
    | seed s =>
        obtain rfl := Option.some.inj hn
        exact .inr (running_initGenrand t.gen s)
    | key ks =>
        obtain ⟨g, hg, rfl⟩ := Option.map_eq_some_iff.mp hn
        exact .inr (running_initByArray hg)
    | draw =>
        obtain rfl := Option.some.inj hn
        refine .inr ?_
        have hdraw := (running_seeded h).draw
        rwa [genrandInt32_seeded] at hdraw

/-- **The generator never gets stuck at zero.** Whatever it is initialised with, by either
function and how often, and after any number of draws, some of the bits that the next
words depend on are set. -/
theorem reach_live (t : Trace 32) (ht : (machine 32).Reach t) (hinit : t.gen.mti ≠ N + 1) :
    Live t.gen.mt 0 :=
  ((reach_running ht).resolve_left hinit).live

theorem reach_live_seedZero : Live (initGenrand loaded 0).mt 0 := by
  have hinit : (machine 32).Reach ⟨loaded, []⟩ := .init rfl
  have hreach : (machine 32).Reach ⟨initGenrand loaded 0, []⟩ :=
    Machine.ReachVia.step (a := Call.seed 0) hinit trivial rfl
  refine reach_live ⟨initGenrand loaded 0, []⟩ hreach ?_
  exact Nat.ne_of_lt (show N < N + 1 from Nat.lt_succ_self N)

/-- **The numbers drawn repeat**, from any point of a run on, after fewer than `2 ^ 19937`
draws. -/
theorem output_periodic (t : Trace 32) (ht : (machine 32).Reach t) :
    ∃ T, 0 < T ∧ T < 2 ^ 19937 ∧ ∀ n, output t.gen (n + T) = output t.gen n := by
  have hrun := running_seeded (reach_running ht)
  have hle : t.gen.mti ≤ N + 1 := by
    rcases reach_running ht with h | h
    · exact h.le
    · exact h.le.trans (Nat.le_succ N)
  obtain ⟨T, hpos, hlt, hT⟩ := (live_words hrun.live).exists_period (follows_words _)
  refine ⟨T, hpos, hlt, fun n => ?_⟩
  have hp := hrun.pos
  rw [output_eq_temper_words _ hle, output_eq_temper_words _ hle, ← Nat.add_assoc,
    hT _ (by omega)]

theorem output_periodic_seeded : (machine 32).Reach ⟨initGenrand loaded 5489, []⟩ ∧
    ∃ T, 0 < T ∧ T < 2 ^ 19937 ∧
      ∀ n, output (initGenrand loaded 5489 : Gen 32) (n + T) =
        output (initGenrand loaded 5489) n := by
  have hinit : (machine 32).Reach ⟨loaded, []⟩ := .init rfl
  have hreach : (machine 32).Reach ⟨initGenrand loaded 5489, []⟩ :=
    Machine.ReachVia.step (a := Call.seed 5489) hinit trivial rfl
  exact ⟨hreach, output_periodic ⟨initGenrand loaded 5489, []⟩ hreach⟩

end OsProjects.Twister
