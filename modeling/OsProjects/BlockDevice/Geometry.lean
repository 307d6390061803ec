import OsProjects.BlockDevice.Sectors

/-!
# The published sizes

`nsectors` and `logical_block_size` are published three times over: as
`Device.size` in bytes, as the capacity of the disk in sectors of 512 bytes, and as
a geometry in cylinders, heads and sectors. `Device.size` is taken for a number of
logical blocks when the geometry is worked out, so that the geometry counts bytes
(`geometry_counts_bytes`), in a number of cylinders that has 16 bits.

`sizes_agree_iff` says for which parameters the three agree: with blocks of 512
bytes, where the cylinders have wrapped to just the right number.
-/

namespace OsProjects.BlockDevice

variable {κ : Type} {cfg : Config 16 κ} {dev : Device}

/-! ## What is published -/

/-- An `int`, given by its 32 bits. -/
def intOf (bits : Nat) : Int := (BitVec.ofNat 32 bits).toInt

/-- `set_capacity(Device.gd, nsectors)`, an `int` converted to `sector_t`. -/
def setCapacity (cfg : Config 16 κ) : Nat := ofInt 64 cfg.nsectors

/-- `struct hd_geometry` -/
structure HdGeometry (word : Nat) where
  heads : BitVec 8
  sectors : BitVec 8
  cylinders : BitVec 16
  start : BitVec word

/-- `long size` is signed, so that it is shifted with its sign. -/
def sbdCryptGetgeo (cfg : Config 16 κ) (dev : Device) : HdGeometry cfg.word :=
  let size : BitVec cfg.word := BitVec.ofNat cfg.word dev.size *
    BitVec.ofInt cfg.word ((intOf cfg.logicalBlockSize).tdiv KERNEL_SECTOR_SIZE)
  { heads := 4
    sectors := 16
    cylinders := ((size &&& ~~~BitVec.ofNat cfg.word 0x3f).sshiftRight 6).setWidth 16
    start := 0 }

/-- How many sectors of 512 bytes a geometry has. -/
def HdGeometry.total {word : Nat} (geo : HdGeometry word) : Nat :=
  geo.cylinders.toNat * geo.heads.toNat * geo.sectors.toNat

/-- The capacity, the size and the geometry are all that of `nsectors` blocks. -/
structure SizesAgree (cfg : Config 16 κ) (dev : Device) : Prop where
  capacity : setCapacity cfg * KERNEL_SECTOR_SIZE = dev.size
  size : (dev.size : Int) = intOf cfg.nsectors * intOf cfg.logicalBlockSize
  geometry : (sbdCryptGetgeo cfg dev).total = setCapacity cfg / 64 * 64

/-! ## Cylinders -/

theorem intOf_of_lt {bits : Nat} (h : bits < 2 ^ 31) : intOf bits = bits := by
  rw [intOf, BitVec.toInt_eq_toNat_cond, BitVec.toNat_ofNat, Nat.mod_eq_of_lt (by omega),
    if_pos (by omega)]

theorem intOf_of_le {bits : Nat} (hlo : 2 ^ 31 ≤ bits) (hhi : bits < 2 ^ 32) :
    intOf bits < 0 := by
  rw [intOf, BitVec.toInt_eq_toNat_cond, BitVec.toNat_ofNat, Nat.mod_eq_of_lt (by omega),
    if_neg (by omega)]
  omega

/-- The mask takes away what the shift drops, and the sign is above the 16 bits
that are kept. -/
theorem toNat_cylinders {word : Nat} (hword : 32 ≤ word) (size : BitVec word) :
    (((size &&& ~~~BitVec.ofNat word 0x3f).sshiftRight 6).setWidth 16).toNat =
      size.toNat / 64 % 2 ^ 16 := by
  have hbits : ((size &&& ~~~BitVec.ofNat word 0x3f).sshiftRight 6).setWidth 16 =
      (size >>> 6).setWidth 16 := by
    ext i hi
    have hmask : Nat.testBit 0x3f (6 + i) = false := by
      rw [show 0x3f = 2 ^ 6 - 1 from rfl, Nat.testBit_two_pow_sub_one]
      simp
    have hin : 6 + i < word := by omega
    rw [BitVec.getElem_setWidth, BitVec.getElem_setWidth, BitVec.getLsbD_sshiftRight,
      BitVec.getLsbD_ushiftRight, if_pos hin, BitVec.getLsbD_and, BitVec.getLsbD_not,
      BitVec.getLsbD_ofNat, hmask, decide_eq_true hin, decide_eq_false (by omega)]
    simp
  rw [hbits, BitVec.toNat_setWidth, BitVec.toNat_ushiftRight, Nat.shiftRight_eq_div_pow]

/-- What the geometry comes to. -/
theorem total_getgeo (hword : 32 ≤ cfg.word) (hblock : cfg.logicalBlockSize < 2 ^ 31) :
    (sbdCryptGetgeo cfg dev).total =
      dev.size * (cfg.logicalBlockSize / KERNEL_SECTOR_SIZE) % 2 ^ cfg.word / 64 % 2 ^ 16 * 64 := by
  have hratio : (intOf cfg.logicalBlockSize).tdiv KERNEL_SECTOR_SIZE =
      ((cfg.logicalBlockSize / KERNEL_SECTOR_SIZE : Nat) : Int) := by
    rw [intOf_of_lt hblock]
    rfl
  have hcylinders : (sbdCryptGetgeo cfg dev).cylinders.toNat =
      dev.size * (cfg.logicalBlockSize / KERNEL_SECTOR_SIZE) % 2 ^ cfg.word / 64 % 2 ^ 16 := by
    rw [sbdCryptGetgeo, toNat_cylinders hword, hratio, BitVec.ofInt_natCast, ← BitVec.ofNat_mul,
      BitVec.toNat_ofNat]
  have hrest : (sbdCryptGetgeo cfg dev).total = (sbdCryptGetgeo cfg dev).cylinders.toNat * 4 * 16 :=
    rfl
  rw [hrest, hcylinders]
  omega

theorem size_lt (hword : 32 ≤ cfg.word) (data : Nat → UInt8) :
    (sbdCryptInit cfg data).size < 2 ^ cfg.word := by
  have hpow : 2 ^ 32 ≤ 2 ^ cfg.word := Nat.pow_le_pow_right Nat.two_pos hword
  show ofInt cfg.word (cfg.nsectors * cfg.logicalBlockSize % 2 ^ 32) < 2 ^ cfg.word
  unfold ofInt
  split <;> omega

/-- With blocks of 512 bytes the total is the number of bytes, up to the width of the
cylinders. -/
theorem total_512 (hword : 32 ≤ cfg.word) (hblock : cfg.logicalBlockSize = KERNEL_SECTOR_SIZE)
    {sectors : Nat} (hsize : dev.size = sectors * KERNEL_SECTOR_SIZE)
    (hlt : dev.size < 2 ^ cfg.word) :
    (sbdCryptGetgeo cfg dev).total = sectors * 8 % 2 ^ 16 * 64 := by
  rw [total_getgeo hword (by rw [hblock]; decide), hblock, Nat.div_self (by decide), Nat.mul_one,
    Nat.mod_eq_of_lt hlt, hsize]
  unfold KERNEL_SECTOR_SIZE
  omega

theorem size_512 (hblock : cfg.logicalBlockSize = KERNEL_SECTOR_SIZE)
    (hfew : cfg.nsectors < 2 ^ 22) (data : Nat → UInt8) :
    (sbdCryptInit cfg data).size = cfg.nsectors * KERNEL_SECTOR_SIZE := by
  have hprod : cfg.nsectors * KERNEL_SECTOR_SIZE < 2 ^ 31 := by
    unfold KERNEL_SECTOR_SIZE
    omega
  rw [sbdCryptInit_size data (by rw [hblock]; exact hprod), hblock]

/-- **The geometry counts bytes**, as long as there are cylinders enough. -/
theorem geometry_counts_bytes (hword : 32 ≤ cfg.word)
    (hblock : cfg.logicalBlockSize = KERNEL_SECTOR_SIZE) (hfew : cfg.nsectors < 2 ^ 13)
    (data : Nat → UInt8) :
    (sbdCryptGetgeo cfg (sbdCryptInit cfg data)).total = (sbdCryptInit cfg data).size := by
  have hsize := size_512 hblock (by omega) data
  rw [total_512 hword hblock hsize (size_lt hword data), hsize]
  unfold KERNEL_SECTOR_SIZE
  omega

/-! ## Agreement -/

/-- The capacity and the size agree for no blocks, or blocks of 512 bytes. -/
theorem SizesAgree.parameters (h : SizesAgree cfg dev) (hsectors : cfg.nsectors < 2 ^ 32)
    (hpos : 0 < cfg.logicalBlockSize) (hblock : cfg.logicalBlockSize < 2 ^ 31) :
    setCapacity cfg = cfg.nsectors ∧
      (cfg.nsectors = 0 ∨ cfg.logicalBlockSize = KERNEL_SECTOR_SIZE) := by
  have hsize := h.size
  rw [intOf_of_lt hblock] at hsize
  rcases Nat.lt_or_ge cfg.nsectors (2 ^ 31) with hnat | hneg
  · have hcap : setCapacity cfg = cfg.nsectors := ofInt_of_lt hnat
    refine ⟨hcap, or_iff_not_imp_left.mpr fun hsome => ?_⟩
    rw [intOf_of_lt hnat, ← h.capacity, hcap] at hsize
    exact (Nat.eq_of_mul_eq_mul_left (Nat.pos_of_ne_zero hsome) (by exact_mod_cast hsize)).symm
  · -- a negative number of blocks
    have := Int.mul_neg_of_neg_of_pos (intOf_of_le hneg hsectors) (Int.natCast_pos.mpr hpos)
    omega

theorem sizesAgree_zero (hword : 32 ≤ cfg.word) (hblock : cfg.logicalBlockSize < 2 ^ 31)
    (hzero : cfg.nsectors = 0) (data : Nat → UInt8) : SizesAgree cfg (sbdCryptInit cfg data) := by
  have hcap : setCapacity cfg = 0 := by
    rw [setCapacity, hzero]
    rfl
  have hsize : (sbdCryptInit cfg data).size = 0 := by
    rw [sbdCryptInit_size data (by rw [hzero]; omega), hzero, Nat.zero_mul]
  refine ⟨?_, ?_, ?_⟩
  · rw [hsize, hcap, Nat.zero_mul]
  · rw [hsize, hzero, intOf_of_lt (by decide), Nat.cast_zero, Int.zero_mul]
  · rw [total_getgeo hword hblock, hsize, hcap, Nat.zero_mul, Nat.zero_mod]
    rfl

/-- With few enough blocks of 512 bytes it is down to the cylinders. -/
theorem sizesAgree_512 (hword : 32 ≤ cfg.word) (h512 : cfg.logicalBlockSize = KERNEL_SECTOR_SIZE)
    (hfew : cfg.nsectors < 2 ^ 22) (hwrap : cfg.nsectors * 8 % 2 ^ 16 = cfg.nsectors / 64)
    (data : Nat → UInt8) : SizesAgree cfg (sbdCryptInit cfg data) := by
  have hcap : setCapacity cfg = cfg.nsectors := ofInt_of_lt (by omega)
  have hsize := size_512 h512 hfew data
  refine ⟨?_, ?_, ?_⟩
  · rw [hcap, hsize]
  · rw [hsize, h512, intOf_of_lt (show cfg.nsectors < 2 ^ 31 by omega), intOf_of_lt (by decide)]
    exact Nat.cast_mul _ _
  · rw [total_512 hword h512 hsize (size_lt hword data), hcap, hwrap]

/-- **When the published sizes agree**: exactly if there is nothing to publish, or
blocks have 512 bytes and eight cylinders for each sector come to one for every 64,
in 16 bits. -/
theorem sizes_agree_iff (cfg : Config 16 κ) (hword : cfg.word = 32 ∨ cfg.word = 64)
    (hsectors : cfg.nsectors < 2 ^ 32) (hpos : 0 < cfg.logicalBlockSize)
    (hblock : cfg.logicalBlockSize < 2 ^ 31) (data : Nat → UInt8) :
    SizesAgree cfg (sbdCryptInit cfg data) ↔
      cfg.nsectors = 0 ∨ (cfg.logicalBlockSize = KERNEL_SECTOR_SIZE ∧
        cfg.nsectors * 8 % 2 ^ 16 = cfg.nsectors / 64) := by
  have h32 : 32 ≤ cfg.word := by omega
  constructor
  · intro h
    obtain ⟨hcap, hzero | h512⟩ := h.parameters hsectors hpos hblock
    · exact .inl hzero
    · have hsize := h.capacity.symm
      have hgeo := h.geometry
      rw [hcap] at hsize hgeo
      rw [total_512 h32 h512 hsize (size_lt h32 data)] at hgeo
      exact .inr ⟨h512, by omega⟩
  · rintro (hzero | ⟨h512, hwrap⟩)
    · exact sizesAgree_zero h32 hblock hzero data
    · exact sizesAgree_512 h32 h512 (by omega) hwrap data

/-- The defaults, with the least number of sectors for which the sizes agree. -/
def wrappedCylinders : Config 16 String := { defaults with nsectors := 8208 }

theorem sizes_agree_wrappedCylinders :
    SizesAgree wrappedCylinders (sbdCryptInit wrappedCylinders fun _ => 0) :=
  (sizes_agree_iff wrappedCylinders (.inl rfl) (by decide) (by decide) (by decide) _).mpr
    (.inr ⟨rfl, rfl⟩)

/-- **The default disk has 1024 sectors and a geometry of 524288.** -/
theorem default_geometry :
    setCapacity defaults = 1024 ∧ (sbdCryptInit defaults fun _ => 0).size = 1024 * 512 ∧
      (sbdCryptGetgeo defaults (sbdCryptInit defaults fun _ => 0)).total = 524288 ∧
      ¬ SizesAgree defaults (sbdCryptInit defaults fun _ => 0) := by
  have htotal : (sbdCryptGetgeo defaults (sbdCryptInit defaults fun _ => 0)).total = 524288 := by
    decide +kernel
  refine ⟨rfl, rfl, htotal, fun h => ?_⟩
  have hgeo := h.geometry
  rw [htotal] at hgeo
  exact absurd hgeo (by decide)

end OsProjects.BlockDevice
