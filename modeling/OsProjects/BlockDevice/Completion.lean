import OsProjects.BlockDevice.Sectors

/-!
# What a completion says

`sbd_crypt_request` completes every segment with status 0: nothing tells it
whether `sbd_crypt_transfer` has moved the segment, a part of it, other bytes in its
place, or nothing at all. `honest_iff` says for which queues that status is true of
every segment that is completed. A segment whose dumps fault is not; neither is any
after it.
-/

namespace OsProjects.BlockDevice

variable {κ : Type}

/-! ## Segments that were moved -/

/-- On a device of this size, every byte of the segment is moved between its place on the
device and its place in the buffer. -/
def Transferred (cfg : Config 16 κ) (size : Nat) (acc : Access) : Prop :=
  ∀ dev : Device, dev.size = size →
    ∃ t, sbdCryptTransfer cfg dev acc.pos acc.sectors acc.buffer acc.write = some t ∧
      ∀ x < acc.sectors * KERNEL_SECTOR_SIZE,
        acc.pos * KERNEL_SECTOR_SIZE + x < size ∧
        ∃ block ∈ t.moved, block.2 ≤ x ∧ x < block.2 + 16 ∧
          block.1 + (x - block.2) = acc.pos * KERNEL_SECTOR_SIZE + x

/-- The segment passes the check. If there is anything to move, it lies on the device, the
driver's offset is its place there, the driver's count of its bytes is large enough,
and with 64 bits the index can count them. -/
def Carried (cfg : Config 16 κ) (size : Nat) (acc : Access) : Prop :=
  ¬ Rejects cfg size acc.pos acc.sectors ∧ (acc.sectors = 0 ∨
    ((acc.pos + acc.sectors) * KERNEL_SECTOR_SIZE ≤ size ∧
      byteOffset cfg acc.pos = acc.pos * KERNEL_SECTOR_SIZE ∧
      acc.sectors * KERNEL_SECTOR_SIZE ≤ byteCount cfg acc.sectors ∧
      (cfg.word = 64 → acc.sectors * KERNEL_SECTOR_SIZE ≤ 2 ^ 31)))

instance (cfg : Config 16 κ) (size : Nat) (acc : Access) : Decidable (Carried cfg size acc) :=
  inferInstanceAs (Decidable (_ ∧ (_ ∨ (_ ∧ _ ∧ _ ∧ (_ → _)))))

section Carried

variable {cfg : Config 16 κ} {size : Nat} {acc : Access}

/-- The round of the loop whose block is over a byte, if every byte is in its place. -/
theorem Transferred.round (h : Transferred cfg size acc) {rounds : Nat}
    (hmoved : moved cfg size acc.pos acc.sectors = some ((List.range rounds).map fun k =>
      ((byteOffset cfg acc.pos + ofInt cfg.word (k * 16)) % 2 ^ cfg.word,
        ofInt cfg.word (k * 16)))) {x : Nat} (hx : x < acc.sectors * KERNEL_SECTOR_SIZE) :
    acc.pos * KERNEL_SECTOR_SIZE + x < size ∧ ∃ k < rounds,
      ofInt cfg.word (k * 16) ≤ x ∧ x < ofInt cfg.word (k * 16) + 16 ∧
        (byteOffset cfg acc.pos + ofInt cfg.word (k * 16)) % 2 ^ cfg.word +
          (x - ofInt cfg.word (k * 16)) = acc.pos * KERNEL_SECTOR_SIZE + x := by
  obtain ⟨t, ht, hall⟩ := h ⟨size, fun _ => 0⟩ rfl
  obtain ⟨hin, block, hb, hover⟩ := hall x hx
  rw [transfer_blocks_eq ht hmoved] at hb
  obtain ⟨k, hk, rfl⟩ := List.mem_map.mp hb
  exact ⟨hin, k, List.mem_range.mp hk, hover⟩

theorem carried_of_transferred (hword : cfg.word = 32 ∨ cfg.word = 64)
    (hblock : 16 ∣ cfg.logicalBlockSize) (hacc : ¬ Rejects cfg size acc.pos acc.sectors)
    (h : Transferred cfg size acc) : Carried cfg size acc := by
  have h32 : 32 ≤ cfg.word := by omega
  obtain ⟨rounds, hrounds, hmoved⟩ := moved_eq h32 (by decide) hblock hacc
  have hround : ∀ x < acc.sectors * KERNEL_SECTOR_SIZE, _ := fun x hx => h.round hmoved hx
  have hwhole : ∀ k, 16 ∣ ofInt cfg.word (k * 16) := fun k =>
    dvd_ofInt h32 (by decide) (Nat.dvd_mul_left 16 k)
  refine ⟨hacc, or_iff_not_imp_left.mpr fun hne => ?_⟩
  unfold KERNEL_SECTOR_SIZE at *
  refine ⟨?_, ?_, ?_, fun h64 => ?_⟩
  · -- the last byte is on the device
    obtain ⟨hin, -⟩ := hround (acc.sectors * 512 - 1) (by omega)
    omega
  · -- the first byte is in its place
    obtain ⟨-, k, -, hlo, -, hplace⟩ := hround 0 (by omega)
    have hlt : byteOffset cfg acc.pos < 2 ^ cfg.word := Nat.mod_lt _ (Nat.two_pow_pos _)
    simpa only [Nat.le_zero.mp hlo, Nat.add_zero, Nat.sub_self, Nat.mod_eq_of_lt hlt] using hplace
  · by_contra hshort
    obtain ⟨-, k, hk, hlo, hhi, -⟩ := hround (byteCount cfg acc.sectors) (by omega)
    have hbelow := hrounds.below k hk
    have hcount : 16 ∣ byteCount cfg acc.sectors := dvd_byteCount h32 (by decide) hblock
    have hdvd := hwhole k
    omega
  · by_contra hlong
    obtain ⟨-, k, hk, hlo, hhi, -⟩ := hround (2 ^ 31) (by omega)
    have hdvd := hwhole k
    have hcases := ofInt_64_cases (k * 16)
    rw [h64] at hlo hhi hdvd
    omega

/-- A byte is in the block of its own index. -/
theorem transferred_of_carried (hword : cfg.word = 32 ∨ cfg.word = 64)
    (hblock : 16 ∣ cfg.logicalBlockSize) (hsize : size < 2 ^ cfg.word)
    (h : Carried cfg size acc) : Transferred cfg size acc := by
  obtain ⟨hacc, hrest⟩ := h
  rintro dev rfl
  obtain ⟨rounds, hrounds, hmoved⟩ := moved_eq (by omega) (by decide) hblock hacc
  obtain ⟨t, ht, hblocks⟩ := exists_transfer hmoved acc.buffer acc.write
  refine ⟨t, ht, fun x hx => ?_⟩
  rw [hblocks]
  unfold KERNEL_SECTOR_SIZE at *
  obtain ⟨hfits, hoff, hcount, hint⟩ := hrest.resolve_left (by omega)
  have hindex : ∀ k, k * 16 ≤ x → k * 16 < 2 ^ 32 → ofInt cfg.word (k * 16) = k * 16 := by
    intro k hk hlt
    exact ofInt_eq hlt (hword.imp_right fun h64 => by have := hint h64; omega)
  have hk : x / 16 < rounds := by
    by_contra hcon
    have hle : rounds * 16 ≤ x := by omega
    have hstop := hrounds.stop
    rw [hindex rounds hle hrounds.int] at hstop
    omega
  have hall := hrounds.int
  refine ⟨by omega, _, List.mem_map_of_mem (List.mem_range.mpr hk), ?_⟩
  rw [hindex (x / 16) (by omega) (by omega), hoff, Nat.mod_eq_of_lt (by omega)]
  omega

end Carried

/-! ## Whole queues -/

/-- Each segment comes back once and in order; where the status is 0 it was moved, and
where it was rejected there is an error. -/
def Honest (cfg : Config 16 κ) (size : Nat) : List Access → List Completion → Prop
  | [], [] => True
  | acc :: accs, .cur back error :: done =>
      (back.pos = acc.pos ∧ back.sectors = acc.sectors ∧ back.write = acc.write) ∧
      (error = 0 → Transferred cfg size acc) ∧
      (Rejects cfg size acc.pos acc.sectors → error ≠ 0) ∧ Honest cfg size accs done
  | _, _ => False

/-- Of the device only its size is described. -/
def sameSize (size : Nat) : Description Unit where
  size := size
  describes _ dev := dev.size = size
  sized _ _ h := h
  apply _ _ := ()
  returns _ acc back := back.pos = acc.pos ∧ back.sectors = acc.sectors ∧ back.write = acc.write

section Queue

variable {cfg : Config 16 κ} {size : Nat}

/-- A transfer that ends leaves the size alone. -/
theorem steps_sameSize (hword : 32 ≤ cfg.word) :
    Steps cfg (sameSize size) fun acc => Halts cfg size acc.pos acc.sectors := by
  rintro p dev acc hfin rfl
  obtain ⟨blocks, hmoved⟩ : ∃ blocks, moved cfg dev.size acc.pos acc.sectors = some blocks :=
    Option.isSome_iff_exists.mp ((moved_isSome_iff hword (by decide)).mpr hfin)
  refine ⟨_, by rw [transfer_moved, hmoved]; rfl, ?_, rfl, rfl, rfl⟩
  exact moveBlocks_size cfg dev acc.buffer acc.write blocks

/-- All segments are completed with status 0, so it has to be true of all of them. -/
theorem honest_of_completes (hword : cfg.word = 32 ∨ cfg.word = 64)
    (hblock : 16 ∣ cfg.logicalBlockSize) (hsize : size < 2 ^ cfg.word) {accs : List Access}
    {done : List Completion} (h : (sameSize size).Completes () accs done) :
    Honest cfg size accs done ↔ ∀ acc ∈ accs, Carried cfg size acc := by
  induction accs generalizing done with
  | nil =>
      cases done with
      | nil => simp [Honest]
      | cons c done => exact h.elim
  | cons acc accs ih =>
      match done, h with
      | .cur back error :: done, ⟨hback, herror, hrest⟩ =>
        have hone : ((error = 0 → Transferred cfg size acc) ∧
            (Rejects cfg size acc.pos acc.sectors → error ≠ 0)) ↔ Carried cfg size acc := by
          constructor
          · rintro ⟨htrans, hrej⟩
            have hacc : ¬ Rejects cfg size acc.pos acc.sectors := fun h => hrej h herror
            exact carried_of_transferred hword hblock hacc (htrans herror)
          · intro hcar
            exact ⟨fun _ => transferred_of_carried hword hblock hsize hcar,
              fun h => absurd h hcar.1⟩
        rw [List.forall_mem_cons, ← hone, ← ih hrest]
        constructor
        · rintro ⟨-, h1, h2, h3⟩
          exact ⟨⟨h1, h2⟩, h3⟩
        · rintro ⟨⟨h1, h2⟩, h3⟩
          exact ⟨hback, h1, h2, h3⟩

end Queue

/-- A sector behind the end of the default device is read. -/
def readBeyond : List Request := [⟨.fs, 1024, false, [⟨1, fun _ => 7⟩]⟩]

/-- The buffer comes back as it was, with status 0, whatever can be read: the transfer
returns before its dumps. -/
theorem readBeyond_completes (readable : Nat → Bool) : ∃ run,
    sbdCryptRequest (defaultsOn readable) 3 (sbdCryptInit (defaultsOn readable) fun _ => 1)
        readBeyond = some run ∧
      Rejects (defaultsOn readable) (sbdCryptInit (defaultsOn readable) fun _ => 1).size 1024 1 ∧
      run.fault = false ∧ run.log = [.cur ⟨1024, 1, false, fun _ => 7⟩ 0] ∧
      ¬ Honest (defaultsOn readable) (sbdCryptInit (defaultsOn readable) fun _ => 1).size
        (accesses readBeyond) run.log := by
  have hrej : Rejects (defaultsOn readable)
      (sbdCryptInit (defaultsOn readable) fun _ => 1).size 1024 1 := by
    show Rejects defaults (sbdCryptInit defaults fun _ => 1).size 1024 1
    decide
  have htr := transfer_rejected hrej (fun _ => 7) false
  have hround := @requestLoop_round _ _ _ ⟨.fs, 1024, false, [⟨1, fun _ => 7⟩]⟩ _ [] [] _ rfl htr
    rfl 2
  refine ⟨_, hround, hrej, rfl, rfl, ?_⟩
  rintro ⟨-, -, hreported, -⟩
  exact hreported hrej rfl

end OsProjects.BlockDevice
