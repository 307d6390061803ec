import OsProjects.BlockDevice.Driver

/-!
# Which blocks a transfer moves

The loops of `sbd_crypt_transfer` in the arithmetic of the machine. The index is
an `int` compared with an `unsigned long`, which on 64 bits takes a negative one
for a huge one: `Rounds` says after how many rounds a loop ends, `moved` which
blocks it has moved by then, as pairs of an address in `dev->data` and one in the
buffer. A transfer is nothing but these moves and the dumps (`transfer_moved`); it
ends if it is of whole blocks (`moved_eq`; `moved_isSome_iff` in general), and
without wrapping it is a blockwise copy (`transfer_write`, `transfer_read`).
-/

namespace OsProjects.BlockDevice

open Framework

variable {n : Nat} {κ : Type}

/-! ## The index -/

theorem ofInt_of_lt {word i : Nat} (h : i < 2 ^ 31) : ofInt word i = i := if_pos h

theorem ofInt_of_le {word i : Nat} (h : 2 ^ 31 ≤ i) : ofInt word i = 2 ^ word - (2 ^ 32 - i) :=
  if_neg (not_lt.mpr h)

/-- On 32 bits, and up to `2 ^ 31` on any machine, the index is itself. -/
theorem ofInt_eq {word i : Nat} (hi : i < 2 ^ 32) (h : word = 32 ∨ i < 2 ^ 31) :
    ofInt word i = i := by
  rcases h with rfl | h
  · unfold ofInt
    split
    · rfl
    · omega
  · exact ofInt_of_lt h

theorem le_ofInt {word i : Nat} (hword : 32 ≤ word) (hi : i < 2 ^ 32) : i ≤ ofInt word i := by
  have hpow : 2 ^ 32 ≤ 2 ^ word := Nat.pow_le_pow_right Nat.two_pos hword
  unfold ofInt
  split
  · exact le_refl i
  · omega

/-- On 64 bits it is small, or huge. -/
theorem ofInt_64_cases (i : Nat) : ofInt 64 i < 2 ^ 31 ∨ 2 ^ 63 < ofInt 64 i := by
  unfold ofInt
  split
  · exact .inl ‹_›
  · exact .inr (by omega)

/-- Indices stay multiples of the block size. -/
theorem dvd_ofInt {word i : Nat} (hword : 32 ≤ word) (hn : n ∣ 2 ^ 31) (h : n ∣ i) :
    n ∣ ofInt word i := by
  unfold ofInt
  split
  · exact h
  · have h32 : n ∣ 2 ^ 32 := hn.trans (Nat.pow_dvd_pow 2 (by decide))
    have hpow : n ∣ 2 ^ word := h32.trans (Nat.pow_dvd_pow 2 hword)
    exact Nat.dvd_sub hpow (Nat.dvd_sub h32 h)

/-! ## Rounds of the loop -/

/-- `for (i = 0; i < nbytes; i += n)`: the values of `i`, as an `unsigned long`, for
which the body is run. -/
def blockIndices (word nbytes n : Nat) : Nat → Nat → Option (List Nat)
  | 0, _ => none
  | fuel + 1, i =>
      let j := ofInt word i
      if j < nbytes then
        (blockIndices word nbytes n fuel ((i + n) % 2 ^ 32)).map fun js => j :: js
      else some []

/-- **The loop of the driver** goes through these indices, and does nothing else. -/
theorem blockLoop_indices {word nbytes : Nat} {f : (Fin n → UInt8) → Fin n → UInt8}
    {src : Nat → UInt8} {a b fuel i : Nat} {dst : Nat → UInt8} :
    blockLoop word nbytes f src a b fuel i dst =
      (blockIndices word nbytes n fuel i).map fun js => (js.foldl (fun dst j =>
        putBlock dst ((b + j) % 2 ^ word) (f (blockAt n src ((a + j) % 2 ^ word)))) dst,
          js.map fun j => ((a + j) % 2 ^ word, (b + j) % 2 ^ word)) := by
  induction fuel generalizing i dst with
  | zero => rfl
  | succ fuel ih =>
      simp only [blockLoop, blockIndices]
      split
      · rw [ih, Option.map_map, Option.map_map]
        rfl
      · rfl

/-- The loop is over after `rounds` rounds, before the index wraps. -/
structure Rounds (word nbytes n rounds : Nat) : Prop where
  int : rounds * n < 2 ^ 32
  below : ∀ k < rounds, ofInt word (k * n) < nbytes
  stop : nbytes ≤ ofInt word (rounds * n)

section Rounds

variable {word nbytes rounds m : Nat}

theorem Rounds.indices_from (h : Rounds word nbytes n rounds) {left k fuel : Nat}
    (hk : k + left = rounds) (hfuel : left < fuel) :
    blockIndices word nbytes n fuel (k * n) =
      some ((List.range' k left).map fun k => ofInt word (k * n)) := by
  induction left generalizing k fuel with
  | zero =>
      obtain ⟨fuel, rfl⟩ := Nat.exists_eq_succ_of_ne_zero (Nat.ne_zero_of_lt hfuel)
      obtain rfl : k = rounds := hk
      rw [blockIndices]
      exact if_neg (not_lt.mpr h.stop)
  | succ left ih =>
      obtain ⟨fuel, rfl⟩ := Nat.exists_eq_succ_of_ne_zero (Nat.ne_zero_of_lt hfuel)
      have hlt := h.below k (by omega)
      have hint := h.int
      have hle : (k + 1) * n ≤ rounds * n := Nat.mul_le_mul_right n (by omega)
      have hindex : (k * n + n) % 2 ^ 32 = (k + 1) * n := by
        rw [← Nat.succ_mul]
        exact Nat.mod_eq_of_lt (Nat.lt_of_le_of_lt hle hint)
      have hrest := ih (k := k + 1) (by omega) (Nat.lt_of_succ_lt_succ hfuel)
      rw [blockIndices]
      simp only [if_pos hlt, hindex, hrest, Option.map_some]
      rfl

/-- With the fuel the driver's loops are given. -/
theorem Rounds.indices (h : Rounds word nbytes n rounds) (hword : 32 ≤ word) (hn : 0 < n) :
    blockIndices word nbytes n (nbytes + 1) 0 =
      some ((List.range rounds).map fun k => ofInt word (k * n)) := by
  have hle : rounds ≤ nbytes := by
    by_contra hcon
    have hlast := h.below nbytes (by omega)
    have hint : nbytes * n < 2 ^ 32 :=
      Nat.lt_of_le_of_lt (Nat.mul_le_mul_right n (by omega)) h.int
    have hge := (Nat.le_mul_of_pos_right nbytes hn).trans (le_ofInt hword hint)
    omega
  have hfrom := h.indices_from (k := 0) (Nat.zero_add rounds) (Nat.lt_succ_of_le hle)
  rwa [Nat.zero_mul, ← List.range_eq_range'] at hfrom

/-- Whole blocks leave room for another one. -/
theorem room_of_dvd (hword : 32 ≤ word) (hn : n ∣ 2 ^ 31) (hdvd : n ∣ nbytes)
    (hlt : nbytes < 2 ^ word) : nbytes + n ≤ 2 ^ word := by
  have hpow : n ∣ 2 ^ word := hn.trans (Nat.pow_dvd_pow 2 (by omega))
  have hle : n ≤ 2 ^ word - nbytes := Nat.le_of_dvd (by omega) (Nat.dvd_sub hpow hdvd)
  omega

/-- **The loop ends** if the last index before the wrap is not below the number of
bytes. -/
theorem exists_rounds (hn : n ∣ 2 ^ 31) (hroom : nbytes + n ≤ 2 ^ word) :
    ∃ rounds, Rounds word nbytes n rounds := by
  obtain ⟨c, hc⟩ := hn
  have hpos : 0 < n := Nat.pos_of_ne_zero (by rintro rfl; simp at hc)
  have hcpos : 0 < c := Nat.pos_of_ne_zero (by rintro rfl; simp at hc)
  have hlast : (2 * c - 1) * n = 2 ^ 32 - n := by
    rw [Nat.sub_mul, Nat.one_mul, Nat.mul_assoc, Nat.mul_comm c n, ← hc]
    rfl
  have hnle : n ≤ 2 ^ 31 := by
    rw [hc]
    exact Nat.le_mul_of_pos_right n hcpos
  have hend : nbytes ≤ ofInt word ((2 * c - 1) * n) := by
    rw [hlast, ofInt_of_le (by omega)]
    omega
  have hex : ∃ k, nbytes ≤ ofInt word (k * n) := ⟨_, hend⟩
  refine ⟨Nat.find hex, ?_, fun k hk => not_le.mp (Nat.find_min hex hk), Nat.find_spec hex⟩
  have hfind : Nat.find hex * n ≤ (2 * c - 1) * n :=
    Nat.mul_le_mul_right n (Nat.find_min' hex hend)
  omega

/-- **Otherwise it never does**: every index is a multiple of the block size, and the
last of them is still below. -/
theorem blockIndices_none (hword : 32 ≤ word) (hn : n ∣ 2 ^ 31) (hroom : ¬ nbytes + n ≤ 2 ^ word)
    (fuel : Nat) {i : Nat} (hi : i < 2 ^ 32) (hdvd : n ∣ i) :
    blockIndices word nbytes n fuel i = none := by
  induction fuel generalizing i with
  | zero => rfl
  | succ fuel ih =>
      have hpow : 2 ^ 32 ≤ 2 ^ word := Nat.pow_le_pow_right Nat.two_pos hword
      have hbelow : ofInt word i < 2 ^ word := by
        unfold ofInt
        split <;> omega
      have hlt : ofInt word i < nbytes := by
        have := room_of_dvd hword hn (dvd_ofInt hword hn hdvd) hbelow
        omega
      have hnext : n ∣ (i + n) % 2 ^ 32 :=
        (Nat.dvd_mod_iff (hn.trans (Nat.pow_dvd_pow 2 (by decide)))).mpr
          (Nat.dvd_add hdvd (Nat.dvd_refl n))
      rw [blockIndices, if_pos hlt, ih (Nat.mod_lt _ (by decide)) hnext, Option.map_none]

/-- One round for each block, as long as the index says what it counts. -/
theorem rounds_straight (hword : 32 ≤ word) (hn : 0 < n) (hblocks : nbytes = m * n)
    (hint : nbytes < 2 ^ 32) (h : word = 32 ∨ nbytes ≤ 2 ^ 31) : Rounds word nbytes n m := by
  subst hblocks
  refine ⟨hint, fun k hk => ?_, le_ofInt hword hint⟩
  have hlt : k * n < m * n := Nat.mul_lt_mul_of_pos_right hk hn
  rw [ofInt_eq (hlt.trans hint) (h.imp_right fun hle => Nat.lt_of_lt_of_le hlt hle)]
  exact hlt

end Rounds

/-! ## Transfers -/

section Moved

variable (cfg : Config n κ) (size sector nsect : Nat)

/-- `offset`, and `nbytes` below. -/
def byteOffset : Nat := sector * cfg.logicalBlockSize % 2 ^ 64 % 2 ^ cfg.word

def byteCount : Nat := nsect * cfg.logicalBlockSize % 2 ^ cfg.word

/-- `(offset + nbytes) > dev->size`, the beyond-end check. -/
def Rejects : Prop := (byteOffset cfg sector + byteCount cfg nsect) % 2 ^ cfg.word > size

instance : Decidable (Rejects cfg size sector nsect) := inferInstanceAs (Decidable (_ > _))

/-- The blocks that are moved, in order: where each is in `dev->data` and in the
buffer. -/
def moved : Option (List (Nat × Nat)) :=
  if Rejects cfg size sector nsect then some []
  else
    (blockIndices cfg.word (byteCount cfg nsect) n (byteCount cfg nsect + 1) 0).map fun js =>
      js.map fun j => ((byteOffset cfg sector + j) % 2 ^ cfg.word, j % 2 ^ cfg.word)

/-- The dumps of a transfer read where nothing is. What is rejected is not dumped. -/
def Faults : Prop :=
  ¬ Rejects cfg size sector nsect ∧ dumps cfg (byteOffset cfg sector) nsect = false

instance : Decidable (Faults cfg size sector nsect) := inferInstanceAs (Decidable (_ ∧ _))

/-- What moving the blocks does. -/
def moveBlocks (dev : Device) (buffer : Nat → UInt8) (write : Bool) (blocks : List (Nat × Nat)) :
    Device × (Nat → UInt8) :=
  if write then
    ({ dev with data := blocks.foldl (fun data block => putBlock data block.1
      (cfg.cipher.encryptOne cfg.cryptKey (blockAt n buffer block.2))) dev.data }, buffer)
  else
    (dev, blocks.foldl (fun buffer block => putBlock buffer block.2
      (cfg.cipher.decryptOne cfg.cryptKey (blockAt n dev.data block.1))) buffer)

end Moved

section Transfer

variable {cfg : Config n κ} {dev : Device} {size sector nsect m : Nat}

/-- **A transfer moves these blocks**, dumps, and does nothing else. -/
theorem transfer_moved (buffer : Nat → UInt8) (write : Bool) :
    sbdCryptTransfer cfg dev sector nsect buffer write =
      (moved cfg dev.size sector nsect).map fun blocks =>
        ⟨(moveBlocks cfg dev buffer write blocks).1, (moveBlocks cfg dev buffer write blocks).2,
          blocks, decide (Faults cfg dev.size sector nsect)⟩ := by
  have hcode : sbdCryptTransfer cfg dev sector nsect buffer write =
      if Rejects cfg dev.size sector nsect then some ⟨dev, buffer, [], false⟩
      else if write then
        (encryptLoop cfg (byteOffset cfg sector) (byteCount cfg nsect) dev.data buffer).map
          fun out => ⟨{ dev with data := out.1 }, buffer, out.2.map Prod.swap,
            !dumps cfg (byteOffset cfg sector) nsect⟩
      else (decryptLoop cfg (byteOffset cfg sector) (byteCount cfg nsect) dev.data buffer).map
        fun out => ⟨dev, out.1, out.2, !dumps cfg (byteOffset cfg sector) nsect⟩ := rfl
  rw [hcode, moved]
  by_cases hrej : Rejects cfg dev.size sector nsect
  · have hsafe : ¬ Faults cfg dev.size sector nsect := fun h => h.1 hrej
    rw [if_pos hrej, if_pos hrej, decide_eq_false hsafe]
    cases write <;> rfl
  · have hfault : decide (Faults cfg dev.size sector nsect) =
        !dumps cfg (byteOffset cfg sector) nsect := by
      simp [Faults, hrej]
    rw [if_neg hrej, if_neg hrej, hfault, encryptLoop, decryptLoop, blockLoop_indices,
      blockLoop_indices]
    cases blockIndices cfg.word (byteCount cfg nsect) n (byteCount cfg nsect + 1) 0 with
    | none => cases write <;> rfl
    | some js => cases write <;> simp [moveBlocks, List.foldl_map, Function.comp_def]

/-- A transfer records what it has moved. -/
theorem transfer_blocks {buffer : Nat → UInt8} {write : Bool} {t : Transfer}
    (h : sbdCryptTransfer cfg dev sector nsect buffer write = some t) :
    moved cfg dev.size sector nsect = some t.moved := by
  rw [transfer_moved] at h
  obtain ⟨blocks, hblocks, rfl⟩ := Option.map_eq_some_iff.mp h
  exact hblocks

theorem transfer_blocks_eq {buffer : Nat → UInt8} {write : Bool} {t : Transfer}
    {blocks : List (Nat × Nat)}
    (h : sbdCryptTransfer cfg dev sector nsect buffer write = some t)
    (hmoved : moved cfg dev.size sector nsect = some blocks) : t.moved = blocks :=
  Option.some.inj ((transfer_blocks h).symm.trans hmoved)

theorem exists_transfer {blocks : List (Nat × Nat)}
    (h : moved cfg dev.size sector nsect = some blocks) (buffer : Nat → UInt8) (write : Bool) :
    ∃ t, sbdCryptTransfer cfg dev sector nsect buffer write = some t ∧ t.moved = blocks := by
  rw [transfer_moved, h]
  exact ⟨_, rfl, rfl⟩

theorem transfer_fault {buffer : Nat → UInt8} {write : Bool} {t : Transfer}
    (h : sbdCryptTransfer cfg dev sector nsect buffer write = some t) :
    t.fault = decide (Faults cfg dev.size sector nsect) := by
  rw [transfer_moved] at h
  obtain ⟨blocks, -, rfl⟩ := Option.map_eq_some_iff.mp h
  rfl

/-- With the first page mapped the dumps do no harm. -/
theorem not_faults_of_readable (h : ∀ a < 4096, cfg.readable a = true) :
    ¬ Faults cfg size sector nsect := by
  have hprint : ∀ tmp < 256, printData cfg.readable tmp 15 = true := by
    intro tmp htmp
    refine List.all_eq_true.mpr fun i hi => h _ ?_
    have := List.mem_range.mp hi
    omega
  rintro ⟨-, hdumps⟩
  have hdest := hprint _ (Nat.mod_lt (cfg.dataAddr + byteOffset cfg sector) (by decide))
  rw [dumps, hdest, hprint 0 (by decide), Bool.or_true] at hdumps
  exact absurd hdumps (by decide)

/-- Without it, every transfer that passes the check ends in one. -/
theorem faults_of_unreadable (h : ∀ a < 4096, cfg.readable a = false)
    (hacc : ¬ Rejects cfg size sector nsect) : Faults cfg size sector nsect := by
  have hlt : (cfg.dataAddr + byteOffset cfg sector) % 256 < 256 := Nat.mod_lt _ (by decide)
  have hdest : printData cfg.readable ((cfg.dataAddr + byteOffset cfg sector) % 256) 15 = false :=
    List.all_eq_false.mpr ⟨0, by decide, by rw [h _ (by omega)]; exact Bool.false_ne_true⟩
  refine ⟨hacc, ?_⟩
  rw [dumps, hdest, Bool.and_false]

theorem moveBlocks_size (cfg : Config n κ) (dev : Device) (buffer : Nat → UInt8) (write : Bool)
    (blocks : List (Nat × Nat)) :
    (moveBlocks cfg dev buffer write blocks).1.size = dev.size := by
  unfold moveBlocks
  split <;> rfl

theorem transfer_rejected (h : Rejects cfg dev.size sector nsect) (buffer : Nat → UInt8)
    (write : Bool) :
    sbdCryptTransfer cfg dev sector nsect buffer write = some ⟨dev, buffer, [], false⟩ := if_pos h

/-- Without sectors nothing is moved, wherever the segment lies. -/
theorem moved_empty : moved cfg size sector 0 = some [] := by
  have hcount : byteCount cfg 0 = 0 := by simp [byteCount]
  rw [moved, hcount]
  split
  · rfl
  · rfl

theorem transfer_empty (buffer : Nat → UInt8) (write : Bool) :
    sbdCryptTransfer cfg dev sector 0 buffer write =
      some ⟨dev, buffer, [], decide (Faults cfg dev.size sector 0)⟩ := by
  rw [transfer_moved, moved_empty]
  cases write <;> rfl

theorem byteCount_lt : byteCount cfg nsect < 2 ^ cfg.word := Nat.mod_lt _ (Nat.two_pow_pos _)

theorem dvd_byteCount (hword : 32 ≤ cfg.word) (hn : n ∣ 2 ^ 31)
    (hblock : n ∣ cfg.logicalBlockSize) : n ∣ byteCount cfg nsect := by
  have hpow : n ∣ 2 ^ cfg.word := hn.trans (Nat.pow_dvd_pow 2 (by omega))
  exact (Nat.dvd_mod_iff hpow).mpr (hblock.mul_left nsect)

theorem Rounds.index_lt {word nbytes rounds k : Nat} (h : Rounds word nbytes n rounds)
    (hk : k < rounds) (hlt : nbytes < 2 ^ word) :
    ofInt word (k * n) % 2 ^ word = ofInt word (k * n) :=
  Nat.mod_eq_of_lt ((h.below k hk).trans hlt)

/-- The blocks of a transfer that is not rejected, by the rounds of its loop. -/
theorem Rounds.moved_eq {rounds : Nat} (h : Rounds cfg.word (byteCount cfg nsect) n rounds)
    (hword : 32 ≤ cfg.word) (hn : 0 < n) (hacc : ¬ Rejects cfg size sector nsect) :
    moved cfg size sector nsect = some ((List.range rounds).map fun k =>
      ((byteOffset cfg sector + ofInt cfg.word (k * n)) % 2 ^ cfg.word,
        ofInt cfg.word (k * n))) := by
  rw [moved, if_neg hacc, h.indices hword hn, Option.map_some, List.map_map]
  refine congrArg some (List.map_congr_left fun k hk => ?_)
  simp only [Function.comp_apply, h.index_lt (List.mem_range.mp hk) byteCount_lt]

/-- Nothing is moved, or an index of the loop gets beyond the number of bytes. -/
def Halts (cfg : Config n κ) (size sector nsect : Nat) : Prop :=
  Rejects cfg size sector nsect ∨ byteCount cfg nsect + n ≤ 2 ^ cfg.word

instance : Decidable (Halts cfg size sector nsect) := inferInstanceAs (Decidable (_ ∨ _))

theorem halts_of_dvd (hword : 32 ≤ cfg.word) (hn : n ∣ 2 ^ 31)
    (hblock : n ∣ cfg.logicalBlockSize) : Halts cfg size sector nsect :=
  .inr (room_of_dvd hword hn (dvd_byteCount hword hn hblock) byteCount_lt)

theorem Halts.moved_eq (h : Halts cfg size sector nsect) (hword : 32 ≤ cfg.word)
    (hn : n ∣ 2 ^ 31) (hacc : ¬ Rejects cfg size sector nsect) :
    ∃ rounds, Rounds cfg.word (byteCount cfg nsect) n rounds ∧
      moved cfg size sector nsect = some ((List.range rounds).map fun k =>
        ((byteOffset cfg sector + ofInt cfg.word (k * n)) % 2 ^ cfg.word,
          ofInt cfg.word (k * n))) := by
  obtain ⟨rounds, hrounds⟩ := exists_rounds hn (h.resolve_left hacc)
  exact ⟨rounds, hrounds, hrounds.moved_eq hword (Nat.pos_of_dvd_of_pos hn (by decide)) hacc⟩

/-- **A transfer of whole blocks always ends**, whatever wraps. -/
theorem moved_eq (hword : 32 ≤ cfg.word) (hn : n ∣ 2 ^ 31) (hblock : n ∣ cfg.logicalBlockSize)
    (hacc : ¬ Rejects cfg size sector nsect) :
    ∃ rounds, Rounds cfg.word (byteCount cfg nsect) n rounds ∧
      moved cfg size sector nsect = some ((List.range rounds).map fun k =>
        ((byteOffset cfg sector + ofInt cfg.word (k * n)) % 2 ^ cfg.word,
          ofInt cfg.word (k * n))) :=
  (halts_of_dvd hword hn hblock).moved_eq hword hn hacc

/-- **Which transfers end.** -/
theorem moved_isSome_iff (hword : 32 ≤ cfg.word) (hn : n ∣ 2 ^ 31) :
    (moved cfg size sector nsect).isSome ↔ Halts cfg size sector nsect := by
  by_cases hrej : Rejects cfg size sector nsect
  · rw [moved, if_pos hrej]
    exact iff_of_true rfl (.inl hrej)
  · constructor
    · intro h
      refine .inr (by_contra fun hroom => ?_)
      rw [moved, if_neg hrej, blockIndices_none hword hn hroom _ (by decide) (Nat.dvd_zero n)] at h
      exact Bool.false_ne_true h
    · intro h
      obtain ⟨rounds, -, hmoved⟩ := h.moved_eq hword hn hrej
      rw [hmoved]
      rfl

theorem sbdCryptInit_size (data : Nat → UInt8)
    (hfits : cfg.nsectors * cfg.logicalBlockSize < 2 ^ 31) :
    (sbdCryptInit cfg data).size = cfg.nsectors * cfg.logicalBlockSize := by
  show ofInt cfg.word (cfg.nsectors * cfg.logicalBlockSize % 2 ^ 32) = _
  rw [Nat.mod_eq_of_lt (by omega), ofInt_of_lt hfits]

/-- Blocks one after another, on the device from `offset` on. -/
def blocksFrom (n offset count : Nat) : List (Nat × Nat) :=
  (List.range count).map fun k => (offset + k * n, k * n)

theorem mem_blocksFrom {offset count : Nat} {block : Nat × Nat} :
    block ∈ blocksFrom n offset count ↔ ∃ k < count, (offset + k * n, k * n) = block := by
  simp [blocksFrom]

/-- The `m` blocks of a logical block are whole ones, the segment lies on the device, and
with more than 32 bits the index can count its bytes. -/
structure InRange (cfg : Config n κ) (size sector nsect m : Nat) : Prop where
  word : 32 ≤ cfg.word
  block : 0 < n
  blocks : cfg.logicalBlockSize = m * n
  fits : size < 2 ^ cfg.word
  fits64 : size < 2 ^ 64
  int : cfg.word = 32 ∨ nsect * cfg.logicalBlockSize ≤ 2 ^ 31
  inside : (sector + nsect) * cfg.logicalBlockSize ≤ size

/-- On a device no larger than an `int` can say, a segment need only lie on it. -/
theorem inRange_of_small (hword : 32 ≤ cfg.word) (hn : 0 < n)
    (hblocks : cfg.logicalBlockSize = m * n) (hsmall : size < 2 ^ 31)
    (hin : (sector + nsect) * cfg.logicalBlockSize ≤ size) :
    InRange cfg size sector nsect m := by
  have hpow : 2 ^ 32 ≤ 2 ^ cfg.word := Nat.pow_le_pow_right Nat.two_pos hword
  have hsum := hin
  rw [Nat.add_mul] at hsum
  exact ⟨hword, hn, hblocks, by omega, by omega, .inr (by omega), hin⟩

/-- Nothing wraps. -/
theorem InRange.exact (h : InRange cfg size sector nsect m) :
    sector * cfg.logicalBlockSize + nsect * cfg.logicalBlockSize ≤ size ∧
    byteOffset cfg sector = sector * cfg.logicalBlockSize ∧
    byteCount cfg nsect = nsect * cfg.logicalBlockSize := by
  have hin := h.inside
  have hfits := h.fits
  have hfits64 := h.fits64
  rw [Nat.add_mul] at hin
  refine ⟨hin, ?_, Nat.mod_eq_of_lt (by omega)⟩
  rw [byteOffset, Nat.mod_eq_of_lt (show _ < 2 ^ 64 by omega), Nat.mod_eq_of_lt (by omega)]

theorem InRange.accepted (h : InRange cfg size sector nsect m) :
    ¬ Rejects cfg size sector nsect := by
  obtain ⟨hin, hoff, hlen⟩ := h.exact
  have hfits := h.fits
  rw [Rejects, hoff, hlen, Nat.mod_eq_of_lt (by omega)]
  exact not_lt.mpr hin

/-- On the device the blocks of the segment are moved, one after another. -/
theorem InRange.moved_eq (h : InRange cfg size sector nsect m) :
    moved cfg size sector nsect =
      some (blocksFrom n (sector * cfg.logicalBlockSize) (nsect * m)) := by
  obtain ⟨hin, hoff, hlen⟩ := h.exact
  have hfits := h.fits
  have hblocks : nsect * cfg.logicalBlockSize = nsect * m * n := by
    rw [h.blocks, Nat.mul_assoc]
  have hcount : nsect * cfg.logicalBlockSize < 2 ^ 32 := by
    rcases h.int with h32 | hint
    · rw [h32] at hfits
      omega
    · omega
  have hrounds : Rounds cfg.word (byteCount cfg nsect) n (nsect * m) := by
    rw [hlen]
    exact rounds_straight h.word h.block hblocks hcount h.int
  rw [hrounds.moved_eq h.word h.block h.accepted, hoff]
  refine congrArg some (List.map_congr_left fun k hk => ?_)
  have hk : k * n < nsect * m * n := Nat.mul_lt_mul_of_pos_right (List.mem_range.mp hk) h.block
  rw [ofInt_eq (by omega) (h.int.imp_right fun _ => by omega), Nat.mod_eq_of_lt (by omega)]

/-- **A write** stores the encrypted buffer. -/
theorem transfer_write (h : InRange cfg dev.size sector nsect m) (buffer : Nat → UInt8) :
    sbdCryptTransfer cfg dev sector nsect buffer true = some
      ⟨⟨dev.size, copyBlocks (cfg.cipher.encryptOne cfg.cryptKey) buffer 0 dev.data
          (sector * cfg.logicalBlockSize) (nsect * m)⟩, buffer,
        blocksFrom n (sector * cfg.logicalBlockSize) (nsect * m),
        decide (Faults cfg dev.size sector nsect)⟩ := by
  rw [transfer_moved, h.moved_eq, ← foldl_putBlock]
  simp [moveBlocks, blocksFrom, List.foldl_map]

/-- **A read** delivers the device's bytes, decrypted. -/
theorem transfer_read (h : InRange cfg dev.size sector nsect m) (buffer : Nat → UInt8) :
    sbdCryptTransfer cfg dev sector nsect buffer false = some
      ⟨dev, copyBlocks (cfg.cipher.decryptOne cfg.cryptKey) dev.data
          (sector * cfg.logicalBlockSize) buffer 0 (nsect * m),
        blocksFrom n (sector * cfg.logicalBlockSize) (nsect * m),
        decide (Faults cfg dev.size sector nsect)⟩ := by
  rw [transfer_moved, h.moved_eq, ← foldl_putBlock]
  simp [moveBlocks, blocksFrom, List.foldl_map]

end Transfer

end OsProjects.BlockDevice
