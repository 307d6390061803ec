import OsProjects.BlockDevice.Refinement

/-!
# Sectors and bytes

The block layer counts in sectors of 512 bytes, the driver multiplies by
`logical_block_size`, in words of the machine.

- `sectors_converted_iff` — the blocks moved are those of the segment's sectors, for all
  segments within the device, exactly if the two sizes are the same and the bytes of
  the device can be counted, or there is nothing to move;
- `check_sound_iff` — what passes the beyond-end check is on the device, at its
  true position, exactly if the end of the segment is a number of the machine and
  the index of the loop can count up to it.
-/

namespace OsProjects.BlockDevice

variable {κ : Type}

def KERNEL_SECTOR_SIZE : Nat := 512

/-! ## Positions -/

section Positions

variable {cfg : Config 16 κ} {dev : Device} {sector nsect : Nat}

/-- Every block that a transfer moves is on the device, at its true position there, and
the positions in the buffer are the multiples of the block size below the true number
of bytes. -/
def Sound (cfg : Config 16 κ) (dev : Device) (sector nsect : Nat) : Prop :=
  ∀ buffer write, ∃ t, sbdCryptTransfer cfg dev sector nsect buffer write = some t ∧
    t.moved.map Prod.snd =
      (List.range (nsect * cfg.logicalBlockSize / 16)).map (fun k => k * 16) ∧
    ∀ block ∈ t.moved, block.1 = sector * cfg.logicalBlockSize + block.2 ∧
      block.1 + 16 ≤ dev.size

/-- Up to the end of the machine's numbers nothing goes wrong. -/
theorem sound_of_lt (hword : cfg.word = 32 ∨ cfg.word = 64) (hblock : 16 ∣ cfg.logicalBlockSize)
    (hsize : dev.size < 2 ^ cfg.word) (hacc : ¬ Rejects cfg dev.size sector nsect)
    (hend : sector * cfg.logicalBlockSize + nsect * cfg.logicalBlockSize < 2 ^ cfg.word)
    (hint : cfg.word = 64 → nsect * cfg.logicalBlockSize ≤ 2 ^ 31) :
    Sound cfg dev sector nsect := by
  have hpow : 2 ^ cfg.word ≤ 2 ^ 64 := Nat.pow_le_pow_right Nat.two_pos (by omega)
  have hoff : byteOffset cfg sector = sector * cfg.logicalBlockSize := by
    rw [byteOffset, Nat.mod_eq_of_lt (show _ < 2 ^ 64 by omega), Nat.mod_eq_of_lt (by omega)]
  have hlen : byteCount cfg nsect = nsect * cfg.logicalBlockSize := Nat.mod_eq_of_lt (by omega)
  have hpass : sector * cfg.logicalBlockSize + nsect * cfg.logicalBlockSize ≤ dev.size := by
    rw [Rejects, hoff, hlen, Nat.mod_eq_of_lt hend] at hacc
    exact not_lt.mp hacc
  obtain ⟨m, hm⟩ := hblock
  have hrange : InRange cfg dev.size sector nsect m :=
    ⟨by omega, by decide, by omega, hsize, by omega, hword.imp_right hint, by rwa [Nat.add_mul]⟩
  have hcount : nsect * cfg.logicalBlockSize / 16 = nsect * m := by
    rw [hm, Nat.mul_left_comm, Nat.mul_div_cancel_left _ (by decide)]
  intro buffer write
  obtain ⟨t, ht, hmoved⟩ := exists_transfer hrange.moved_eq buffer write
  refine ⟨t, ht, ?_, fun block hb => ?_⟩
  · rw [hmoved, hcount, blocksFrom, List.map_map]
    rfl
  · rw [hmoved] at hb
    obtain ⟨k, hk, rfl⟩ := mem_blocksFrom.mp hb
    refine ⟨rfl, ?_⟩
    dsimp only
    omega

/-- **When the beyond-end check is enough**: for what it does not reject, exactly if
nothing is to be moved, or the end of the segment does not wrap and, with 64 bits,
an `int` can count its bytes. -/
theorem check_sound_iff (hword : cfg.word = 32 ∨ cfg.word = 64)
    (hblock : 16 ∣ cfg.logicalBlockSize) (hpos : 0 < cfg.logicalBlockSize)
    (hsize : dev.size < 2 ^ cfg.word) (hacc : ¬ Rejects cfg dev.size sector nsect) :
    Sound cfg dev sector nsect ↔ nsect = 0 ∨
      (sector * cfg.logicalBlockSize + nsect * cfg.logicalBlockSize < 2 ^ cfg.word ∧
        (cfg.word = 64 → nsect * cfg.logicalBlockSize ≤ 2 ^ 31)) := by
  constructor
  · intro hsound
    obtain ⟨t, ht, hbuffer, hdevice⟩ := hsound (fun _ => 0) true
    refine or_iff_not_imp_left.mpr fun hne => ?_
    have hwhole : 16 ∣ nsect * cfg.logicalBlockSize := hblock.mul_left nsect
    have hbytes : 0 < nsect * cfg.logicalBlockSize :=
      Nat.mul_pos (Nat.pos_of_ne_zero hne) hpos
    -- a multiple below the true number of bytes is the place of some block
    have hplace : ∀ k < nsect * cfg.logicalBlockSize / 16, ∃ block ∈ t.moved, block.2 = k * 16 := by
      intro k hk
      have hmem : k * 16 ∈ t.moved.map Prod.snd := by
        rw [hbuffer]
        exact List.mem_map_of_mem (List.mem_range.mpr hk)
      exact List.mem_map.mp hmem
    constructor
    · obtain ⟨block, hb, hlast⟩ := hplace (nsect * cfg.logicalBlockSize / 16 - 1) (by omega)
      have hend := hdevice block hb
      omega
    · intro h64
      by_contra hlong
      obtain ⟨block, hb, hmid⟩ := hplace (2 ^ 27) (by omega)
      obtain ⟨rounds, -, hrounds⟩ := moved_eq (by omega) (by decide) hblock hacc
      rw [transfer_blocks_eq ht hrounds] at hb
      obtain ⟨k, -, rfl⟩ := List.mem_map.mp hb
      have hindex : ofInt 64 (k * 16) = 2 ^ 27 * 16 := h64 ▸ hmid
      have hcases := ofInt_64_cases (k * 16)
      omega
  · rintro (rfl | ⟨hend, hint⟩)
    · intro buffer write
      refine ⟨_, transfer_empty buffer write, ?_, fun block hb => absurd hb List.not_mem_nil⟩
      rw [Nat.zero_mul]
      rfl
    · exact sound_of_lt hword hblock hsize hacc hend hint

end Positions

/-- Two sectors from sector 3 on, on the default device. -/
theorem check_sound_defaults :
    ¬ Rejects defaults (sbdCryptInit defaults fun _ => 0).size 3 2 ∧
      Sound defaults (sbdCryptInit defaults fun _ => 0) 3 2 := by
  refine ⟨by decide, (check_sound_iff (.inl rfl) (by decide) (by decide) (by decide)
    (by decide)).mpr (.inr ⟨by decide, by decide⟩)⟩

/-- **Sector `2 ^ 23` passes the check**, 4 GiB behind the end of the default device:
its offset is 0, and it is written over sector 0. -/
theorem wrapped_past_check :
    ¬ Rejects defaults (sbdCryptInit defaults fun _ => 0).size (2 ^ 23) 1 ∧
    (∀ buffer write, ∃ t, sbdCryptTransfer defaults (sbdCryptInit defaults fun _ => 0) (2 ^ 23) 1
      buffer write = some t ∧ t.moved = blocksFrom 16 0 32) ∧
    ¬ Sound defaults (sbdCryptInit defaults fun _ => 0) (2 ^ 23) 1 := by
  have hmoved : moved defaults (sbdCryptInit defaults fun _ => 0).size (2 ^ 23) 1 =
      some (blocksFrom 16 0 32) := by decide +kernel
  refine ⟨by decide, exists_transfer hmoved, fun hsound => ?_⟩
  obtain ⟨t, ht, -, hdevice⟩ := hsound (fun _ => 0) true
  rw [transfer_blocks_eq ht hmoved] at hdevice
  exact absurd (hdevice (0, 0) (by decide)).1 (by decide)

/-! ## Units -/

/-- A segment is transferred as the block layer means it: its sectors on the device and
its buffer, block by block. -/
structure SectorsConverted (cfg : Config 16 κ) (dev : Device) (acc : Access) : Prop where
  exact : ∃ t, sbdCryptTransfer cfg dev acc.pos acc.sectors acc.buffer acc.write = some t ∧
    t.moved = blocksFrom 16 (acc.pos * KERNEL_SECTOR_SIZE) (acc.sectors * KERNEL_SECTOR_SIZE / 16)
  inBuffer : ∀ t, sbdCryptTransfer cfg dev acc.pos acc.sectors acc.buffer acc.write = some t →
    ∀ block ∈ t.moved, block.2 + 16 ≤ acc.sectors * KERNEL_SECTOR_SIZE

/-- So are all segments within the first `sectors` sectors, and those without a sector in
common have no byte of the device in common. -/
structure UnitsConverted (cfg : Config 16 κ) (dev : Device) (sectors : Nat) : Prop where
  segment : ∀ acc : Access, acc.pos + acc.sectors ≤ sectors → SectorsConverted cfg dev acc
  apart : ∀ acc other : Access, acc.pos + acc.sectors ≤ sectors →
    other.pos + other.sectors ≤ sectors →
    (∀ sector, acc.covers sector → ¬ other.covers sector) →
    ∀ t t', sbdCryptTransfer cfg dev acc.pos acc.sectors acc.buffer acc.write = some t →
      sbdCryptTransfer cfg dev other.pos other.sectors other.buffer other.write = some t' →
      ∀ block ∈ t.moved, ∀ block' ∈ t'.moved,
        block.1 + 16 ≤ block'.1 ∨ block'.1 + 16 ≤ block.1

section Units

variable {cfg : Config 16 κ} {dev : Device} {acc other : Access}

theorem sectors_blocks (sectors : Nat) : sectors * KERNEL_SECTOR_SIZE / 16 = sectors * 32 := by
  unfold KERNEL_SECTOR_SIZE
  omega

/-- The sectors of a segment that is converted, as bytes. -/
theorem SectorsConverted.between (h : SectorsConverted cfg dev acc) {t : Transfer}
    (ht : sbdCryptTransfer cfg dev acc.pos acc.sectors acc.buffer acc.write = some t)
    {block : Nat × Nat} (hmem : block ∈ t.moved) :
    0 < acc.sectors ∧ acc.pos * KERNEL_SECTOR_SIZE ≤ block.1 ∧
      block.1 + 16 ≤ (acc.pos + acc.sectors) * KERNEL_SECTOR_SIZE := by
  obtain ⟨t', ht', hmoved⟩ := h.exact
  obtain rfl := Option.some.inj (ht.symm.trans ht')
  rw [hmoved] at hmem
  obtain ⟨k, hk, rfl⟩ := mem_blocksFrom.mp hmem
  unfold KERNEL_SECTOR_SIZE at *
  dsimp only
  omega

/-- Of two segments without a sector in common one ends before the other begins. -/
theorem SectorsConverted.apart (h : SectorsConverted cfg dev acc)
    (h' : SectorsConverted cfg dev other)
    (hdisjoint : ∀ sector, acc.covers sector → ¬ other.covers sector) {t t' : Transfer}
    (ht : sbdCryptTransfer cfg dev acc.pos acc.sectors acc.buffer acc.write = some t)
    (ht' : sbdCryptTransfer cfg dev other.pos other.sectors other.buffer other.write = some t')
    {block block' : Nat × Nat} (hmem : block ∈ t.moved) (hmem' : block' ∈ t'.moved) :
    block.1 + 16 ≤ block'.1 ∨ block'.1 + 16 ≤ block.1 := by
  obtain ⟨hpos, hlo, hhi⟩ := h.between ht hmem
  obtain ⟨hpos', hlo', hhi'⟩ := h'.between ht' hmem'
  have hsides : acc.pos + acc.sectors ≤ other.pos ∨ other.pos + other.sectors ≤ acc.pos := by
    have hfirst := hdisjoint acc.pos
    have hsecond := hdisjoint other.pos
    unfold Access.covers at hfirst hsecond
    omega
  rcases hsides with hle | hle
  · exact .inl (hhi.trans ((Nat.mul_le_mul_right _ hle).trans hlo'))
  · exact .inr (hhi'.trans ((Nat.mul_le_mul_right _ hle).trans hlo))

theorem unitsConverted_of_segments {sectors : Nat}
    (h : ∀ acc : Access, acc.pos + acc.sectors ≤ sectors → SectorsConverted cfg dev acc) :
    UnitsConverted cfg dev sectors := by
  refine ⟨h, ?_⟩
  intro acc other hin hin' hdisjoint t t' ht ht' block hb block' hb'
  exact (h acc hin).apart (h other hin') hdisjoint ht ht' hb hb'

theorem sectorsConverted_empty (h : acc.sectors = 0) : SectorsConverted cfg dev acc := by
  have hmoved : moved cfg dev.size acc.pos acc.sectors = some [] := by
    rw [h]
    exact moved_empty
  have hnone : blocksFrom 16 (acc.pos * KERNEL_SECTOR_SIZE)
      (acc.sectors * KERNEL_SECTOR_SIZE / 16) = [] := by
    rw [h, Nat.zero_mul]
    rfl
  refine ⟨?_, fun t ht block hmem => ?_⟩
  · rw [hnone]
    exact exists_transfer hmoved _ _
  · rw [transfer_blocks_eq ht hmoved] at hmem
    exact absurd hmem List.not_mem_nil

/-- With blocks of one sector nothing is lost in range. -/
theorem InRange.converted (h : InRange cfg dev.size acc.pos acc.sectors 32) :
    SectorsConverted cfg dev acc := by
  have hblock : cfg.logicalBlockSize = KERNEL_SECTOR_SIZE := h.blocks
  have hmoved := h.moved_eq
  rw [hblock, ← sectors_blocks] at hmoved
  refine ⟨exists_transfer hmoved _ _, fun t ht block hmem => ?_⟩
  rw [transfer_blocks_eq ht hmoved] at hmem
  obtain ⟨k, hk, rfl⟩ := mem_blocksFrom.mp hmem
  unfold KERNEL_SECTOR_SIZE at hk ⊢
  dsimp only
  omega

/-- What the blocks of a converted segment say of the loop. -/
theorem SectorsConverted.rounds (h : SectorsConverted cfg dev acc) (hword : 32 ≤ cfg.word)
    (hblock : 16 ∣ cfg.logicalBlockSize) (hsome : 0 < acc.sectors) :
    ¬ Rejects cfg dev.size acc.pos acc.sectors ∧
      Rounds cfg.word (byteCount cfg acc.sectors) 16 (acc.sectors * 32) ∧
      ∀ k < acc.sectors * 32, ofInt cfg.word (k * 16) = k * 16 := by
  obtain ⟨t, ht, hexact⟩ := h.exact
  have hblocks := transfer_blocks ht
  rw [hexact, sectors_blocks] at hblocks
  have hacc : ¬ Rejects cfg dev.size acc.pos acc.sectors := by
    intro hrej
    rw [moved, if_pos hrej] at hblocks
    have hlen := congrArg List.length (Option.some.inj hblocks)
    rw [blocksFrom, List.length_map, List.length_range, List.length_nil] at hlen
    omega
  obtain ⟨rounds, hrounds, hmoved⟩ := moved_eq hword (by decide) hblock hacc
  have hsame := Option.some.inj (hmoved.symm.trans hblocks)
  obtain rfl : rounds = acc.sectors * 32 := by
    simpa [blocksFrom] using congrArg List.length hsame
  refine ⟨hacc, hrounds, fun k hk => ?_⟩
  exact congrArg Prod.snd (List.map_inj_left.mp hsame k (List.mem_range.mpr hk))

end Units

/-- **Sectors are converted correctly** exactly if there are none, or a logical block is a
sector of the kernel, all sectors are on the device and, with 64 bits, an `int` can
count their bytes. -/
theorem sectors_converted_iff (cfg : Config 16 κ) (hword : cfg.word = 32 ∨ cfg.word = 64)
    (hblock : KERNEL_SECTOR_SIZE ∣ cfg.logicalBlockSize) (hint : cfg.logicalBlockSize < 2 ^ 31)
    (dev : Device) (hsize : dev.size < 2 ^ cfg.word) (sectors : Nat) :
    UnitsConverted cfg dev sectors ↔ sectors = 0 ∨
      (cfg.logicalBlockSize = KERNEL_SECTOR_SIZE ∧ sectors * KERNEL_SECTOR_SIZE ≤ dev.size ∧
        (cfg.word = 64 → sectors * KERNEL_SECTOR_SIZE ≤ 2 ^ 31)) := by
  have h32 : 32 ≤ cfg.word := by omega
  have hpow : 2 ^ 32 ≤ 2 ^ cfg.word := Nat.pow_le_pow_right Nat.two_pos h32
  constructor
  · intro h
    refine or_iff_not_imp_left.mpr fun hne => ?_
    have hwhole : 16 ∣ cfg.logicalBlockSize := Nat.dvd_trans (by decide) hblock
    -- a single sector gives the block size away
    have hone := h.segment ⟨0, 1, true, fun _ => 0⟩ (show 0 + 1 ≤ sectors by omega)
    obtain ⟨-, hrounds, -⟩ := hone.rounds h32 hwhole Nat.one_pos
    have hcount : byteCount cfg 1 = cfg.logicalBlockSize := by
      rw [byteCount, Nat.one_mul, Nat.mod_eq_of_lt (by omega)]
    have h512 : cfg.logicalBlockSize = KERNEL_SECTOR_SIZE := by
      obtain ⟨-, hbelow, hstop⟩ := hrounds
      have hlast := hbelow 31 (by decide)
      dsimp only at hlast hstop
      rw [hcount, ofInt_of_lt (by decide)] at hlast hstop
      unfold KERNEL_SECTOR_SIZE at hblock ⊢
      omega
    -- and all of them together how many there can be
    have hall := h.segment ⟨0, sectors, true, fun _ => 0⟩ (show 0 + sectors ≤ sectors by omega)
    obtain ⟨hacc, hrounds, hindex⟩ := hall.rounds h32 hwhole (Nat.pos_of_ne_zero hne)
    have hbytes := hrounds.int
    dsimp only at hacc hbytes hindex
    have hlen : byteCount cfg sectors = sectors * KERNEL_SECTOR_SIZE := by
      unfold KERNEL_SECTOR_SIZE at h512 ⊢
      rw [byteCount, h512, Nat.mod_eq_of_lt (by omega)]
    have hoff : byteOffset cfg 0 = 0 := by simp [byteOffset]
    refine ⟨h512, ?_, fun h64 => ?_⟩
    · unfold KERNEL_SECTOR_SIZE at hlen ⊢
      rw [Rejects, hoff, hlen, Nat.zero_add, Nat.mod_eq_of_lt (by omega)] at hacc
      exact not_lt.mp hacc
    · by_contra hlong
      unfold KERNEL_SECTOR_SIZE at hlong
      have hmid := hindex (2 ^ 27) (by omega)
      rw [h64] at hmid
      exact absurd hmid (by decide)
  · rintro (rfl | ⟨h512, hfits, hcount⟩)
    · exact unitsConverted_of_segments fun acc hin => sectorsConverted_empty (by omega)
    · apply unitsConverted_of_segments
      intro acc hin
      unfold KERNEL_SECTOR_SIZE at h512 hfits hcount
      have h64 : 2 ^ cfg.word ≤ 2 ^ 64 := Nat.pow_le_pow_right Nat.two_pos (by omega)
      apply InRange.converted
      refine ⟨h32, by decide, h512, hsize, by omega, hword.imp_right fun h => ?_, ?_⟩
      · rw [h512]
        exact (Nat.mul_le_mul_right 512 (Nat.le_of_add_left_le hin)).trans (hcount h)
      · rw [h512]
        exact (Nat.mul_le_mul_right 512 hin).trans hfits

/-- All 1024 sectors of the default device. -/
theorem sectors_converted_defaults :
    UnitsConverted defaults (sbdCryptInit defaults fun _ => 0) 1024 :=
  (sectors_converted_iff defaults (.inl rfl) (by decide) (by decide) _ (by decide) 1024).mpr
    (.inr ⟨rfl, by decide, by decide⟩)

/-- The defaults, but for the block size. -/
def wideBlocks : Config 16 String := { defaults with logicalBlockSize := 1024 }

/-- **One sector is read past its buffer** when blocks have 1024 bytes: 64 blocks are
moved instead of 32, from sector 2 on instead of sector 1. -/
theorem sector_taken_for_block :
    (∀ buffer write, ∃ t,
      sbdCryptTransfer wideBlocks (sbdCryptInit wideBlocks fun _ => 0) 1 1 buffer write = some t ∧
        t.moved = blocksFrom 16 1024 64) ∧
    ¬ UnitsConverted wideBlocks (sbdCryptInit wideBlocks fun _ => 0) 1024 := by
  have hmoved : moved wideBlocks (sbdCryptInit wideBlocks fun _ => 0).size 1 1 =
      some (blocksFrom 16 1024 64) := by decide +kernel
  have htransfer : ∀ buffer write, ∃ t,
      sbdCryptTransfer wideBlocks (sbdCryptInit wideBlocks fun _ => 0) 1 1 buffer write = some t ∧
        t.moved = blocksFrom 16 1024 64 :=
    exists_transfer hmoved
  refine ⟨htransfer, fun h => ?_⟩
  obtain ⟨t, ht, hblocks⟩ := htransfer (fun _ => 0) false
  have hseg := h.segment ⟨1, 1, false, fun _ => 0⟩ (by decide)
  have hlast := hseg.inBuffer t ht (2032, 1008) (by rw [hblocks]; decide +kernel)
  exact absurd hlast (by decide)

end OsProjects.BlockDevice
