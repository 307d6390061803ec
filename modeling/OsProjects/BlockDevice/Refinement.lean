import OsProjects.BlockDevice.Requests

/-!
# The device is a plaintext disk

What the driver is for, in its own terms: a `Plain` disk of bytes and the set of
the 512-byte sectors that have been written. `Refines` ties it to the device:
written sectors hold the encryption, block by block, of what the disk says, and
all other bytes are the device's first ones. One transfer keeps that relation and
returns what the disk returns (`transfer_refines`); so does a whole queue of
requests (`device_refines_disk`), as long as the dumps have something to read.
-/

namespace OsProjects.BlockDevice

open Framework

variable {κ : Type}

/-! ## The plaintext disk -/

structure Plain where
  disk : Nat → UInt8
  written : Nat → Prop

/-- Nothing written yet. -/
def Plain.blank (disk : Nat → UInt8) : Plain := ⟨disk, fun _ => False⟩

def Access.covers (acc : Access) (sector : Nat) : Prop :=
  acc.pos ≤ sector ∧ sector < acc.pos + acc.sectors

instance (acc : Access) (sector : Nat) : Decidable (acc.covers sector) :=
  inferInstanceAs (Decidable (_ ∧ _))

/-- A write stores the buffer; a read changes nothing. -/
def Plain.apply (p : Plain) (acc : Access) : Plain :=
  if acc.write then
    ⟨fun x => if acc.covers (x / 512) then acc.buffer (x - acc.pos * 512) else p.disk x,
      fun sector => p.written sector ∨ acc.covers sector⟩
  else p

/-- The segment comes back as the disk says: a write with its buffer, a read with
the disk's bytes of all written sectors, and nothing behind the buffer's end. -/
structure Delivered (p : Plain) (acc back : Access) : Prop where
  pos : back.pos = acc.pos
  sectors : back.sectors = acc.sectors
  write : back.write = acc.write
  kept : acc.write = true → back.buffer = acc.buffer
  read : acc.write = false → ∀ x < acc.sectors * 512, p.written (acc.pos + x / 512) →
    back.buffer x = p.disk (acc.pos * 512 + x)
  behind : ∀ x, acc.sectors * 512 ≤ x → back.buffer x = acc.buffer x

/-! ## The relation -/

section

variable (cfg : Config 16 κ)

/-- 512-byte blocks, a size that fits an `int`, and a first page of memory, with which the
dumps are as good as left out. -/
structure Setting : Prop where
  word : 32 ≤ cfg.word
  block : cfg.logicalBlockSize = 512
  fits : cfg.nsectors * 512 < 2 ^ 31
  page : ∀ a < 4096, cfg.readable a = true

/-- And a cipher that undoes itself. -/
structure Assumptions : Prop extends Setting cfg where
  undo : ∀ w, cfg.cipher.decryptOne cfg.cryptKey (cfg.cipher.encryptOne cfg.cryptKey w) = w

def encrypted (disk : Nat → UInt8) : Nat → UInt8 :=
  blockwise (by decide) (cfg.cipher.encryptOne cfg.cryptKey) disk

structure Refines (first : Nat → UInt8) (p : Plain) (data : Nat → UInt8) : Prop where
  written : ∀ x, p.written (x / 512) → data x = encrypted cfg p.disk x
  other : ∀ x, ¬ p.written (x / 512) → data x = first x

end

section Setting

variable {cfg : Config 16 κ}

theorem Setting.init_size (hcfg : Setting cfg) (data : Nat → UInt8) :
    (sbdCryptInit cfg data).size = cfg.nsectors * 512 := by
  have hfits := hcfg.fits
  rw [← hcfg.block] at hfits ⊢
  exact sbdCryptInit_size data hfits

theorem Setting.inRange (hcfg : Setting cfg) {dev : Device} {acc : Access}
    (hsize : dev.size = cfg.nsectors * 512) (hin : acc.pos + acc.sectors ≤ cfg.nsectors) :
    InRange cfg dev.size acc.pos acc.sectors 32 := by
  rw [hsize]
  refine inRange_of_small hcfg.word (by decide) hcfg.block hcfg.fits ?_
  rw [hcfg.block]
  exact Nat.mul_le_mul_right 512 hin

end Setting

section Access

variable {cfg : Config 16 κ} {first : Nat → UInt8} {p : Plain} {data : Nat → UInt8}
  {acc : Access}

theorem refines_blank (cfg : Config 16 κ) (first disk : Nat → UInt8) :
    Refines cfg first (.blank disk) first :=
  ⟨fun _ h => h.elim, fun _ _ => rfl⟩

/-- **A write keeps the relation.** Sectors are whole blocks, so a byte's block is
new or old as a whole. -/
theorem refines_write (h : Refines cfg first p data) (hw : acc.write = true) :
    Refines cfg first (p.apply acc)
      (copyBlocks (cfg.cipher.encryptOne cfg.cryptKey) acc.buffer 0 data (acc.pos * 512)
        (acc.sectors * 32)) := by
  rw [Plain.apply, if_pos hw]
  have hold : ∀ x, ¬ acc.covers (x / 512) →
      copyBlocks (cfg.cipher.encryptOne cfg.cryptKey) acc.buffer 0 data (acc.pos * 512)
        (acc.sectors * 32) x = data x := by
    intro x hx
    refine copyBlocks_outside ?_
    unfold Access.covers at hx
    omega
  refine ⟨fun x hx => ?_, fun x hx => ?_⟩
  · by_cases hcov : acc.covers (x / 512)
    · obtain ⟨j, rfl⟩ : ∃ j, x = acc.pos * 512 + j :=
        Nat.exists_eq_add_of_le (by unfold Access.covers at hcov; omega)
      have hj : j < acc.sectors * 32 * 16 := by
        unfold Access.covers at hcov
        omega
      rw [copyBlocks_inside (by decide) hj]
      refine blockwise_congr (by omega) fun i hi => ?_
      have hin : acc.covers (((acc.pos * 512 + j) / 16 * 16 + i) / 512) := by
        unfold Access.covers at hcov ⊢
        omega
      show acc.buffer (0 + (j / 16 * 16 + i)) = if _ then _ else _
      rw [if_pos hin]
      congr 1
      omega
    · have hwas : p.written (x / 512) := hx.resolve_right hcov
      rw [hold x hcov, h.written x hwas]
      refine blockwise_congr rfl fun i hi => ?_
      have hout : ¬ acc.covers ((x / 16 * 16 + i) / 512) := by
        unfold Access.covers at hcov ⊢
        omega
      exact (if_neg hout).symm
  · obtain ⟨hwas, hcov⟩ := not_or.mp hx
    rw [hold x hcov, h.other x hwas]

/-- **A read delivers the plaintext** of the sectors that have been written. -/
theorem delivered_read (hcfg : Assumptions cfg) (h : Refines cfg first p data)
    (hw : acc.write = false) :
    Delivered p acc ⟨acc.pos, acc.sectors, acc.write,
      copyBlocks (cfg.cipher.decryptOne cfg.cryptKey) data (acc.pos * 512) acc.buffer 0
        (acc.sectors * 32)⟩ where
  pos := rfl
  sectors := rfl
  write := rfl
  kept := fun h => absurd (hw.symm.trans h) nofun
  read := by
    intro _ x hx hwas
    have hinside : copyBlocks (cfg.cipher.decryptOne cfg.cryptKey) data (acc.pos * 512)
        acc.buffer 0 (acc.sectors * 32) (0 + x) = _ :=
      copyBlocks_inside (by decide) (show x < acc.sectors * 32 * 16 by omega)
    rw [Nat.zero_add] at hinside
    show copyBlocks _ _ _ _ _ _ x = _
    rw [hinside]
    refine @blockwise_undo _ _ _ _ _ hcfg.undo (fun y => p.disk (acc.pos * 512 + y)) _ _ ?_
    intro j hj
    -- the bytes of one block are in one sector
    have hsame : (acc.pos * 512 + (x / 16 * 16 + j)) / 512 = acc.pos + x / 512 := by omega
    rw [h.written _ (by rw [hsame]; exact hwas)]
    refine blockwise_congr (by omega) fun i hi => ?_
    exact congrArg p.disk (by omega)
  behind := by
    intro x hx
    exact copyBlocks_outside (Or.inr (by omega))

theorem delivered_write (hw : acc.write = true) :
    Delivered p acc ⟨acc.pos, acc.sectors, acc.write, acc.buffer⟩ where
  pos := rfl
  sectors := rfl
  write := rfl
  kept := fun _ => rfl
  read := fun h => absurd (hw.symm.trans h) nofun
  behind := fun _ _ => rfl

/-- **One transfer.** -/
theorem transfer_refines {dev : Device} (acc : Access) (hcfg : Assumptions cfg)
    (h : Refines cfg first p dev.data) (hsize : dev.size = cfg.nsectors * 512)
    (hin : acc.pos + acc.sectors ≤ cfg.nsectors) :
    ∃ t, sbdCryptTransfer cfg dev acc.pos acc.sectors acc.buffer acc.write = some t ∧
      t.dev.size = cfg.nsectors * 512 ∧ Refines cfg first (p.apply acc) t.dev.data ∧
      Delivered p acc ⟨acc.pos, acc.sectors, acc.write, t.buffer⟩ := by
  have hrange := hcfg.inRange hsize hin
  cases hw : acc.write with
  | true =>
      refine ⟨_, transfer_write hrange acc.buffer, hsize, ?_, ?_⟩
      · rw [hcfg.block]
        exact refines_write h hw
      · rw [← hw]
        exact delivered_write hw
  | false =>
      refine ⟨_, transfer_read hrange acc.buffer, hsize, ?_, ?_⟩
      · rw [Plain.apply, hw]
        exact h
      · rw [← hw, hcfg.block]
        exact delivered_read hcfg h hw

end Access

/-! ## Whole queues -/

section Queue

variable {cfg : Config 16 κ} {first : Nat → UInt8}

/-- The plaintext disk as a description of the device. -/
def plainDisk (cfg : Config 16 κ) (first : Nat → UInt8) : Description Plain where
  size := cfg.nsectors * 512
  describes p dev := Refines cfg first p dev.data ∧ dev.size = cfg.nsectors * 512
  sized _ _ h := h.2
  apply := Plain.apply
  returns := Delivered

theorem steps_plainDisk (hcfg : Assumptions cfg) :
    Steps cfg (plainDisk cfg first) fun acc => acc.pos + acc.sectors ≤ cfg.nsectors := by
  rintro p dev acc hin ⟨href, hsize⟩
  obtain ⟨t, htr, hsize', href', hdel⟩ := transfer_refines acc hcfg href hsize hin
  exact ⟨t, htr, ⟨href', hsize'⟩, hdel⟩

/-- The segments of a request lie where the request lies. -/
theorem accessesFrom_inside {write : Bool} {segs : List Segment} {pos bound : Nat}
    (h : pos + (segs.map Segment.sectors).sum ≤ bound) :
    ∀ acc ∈ accessesFrom write pos segs, acc.pos + acc.sectors ≤ bound := by
  induction segs generalizing pos with
  | nil => exact fun acc hacc => absurd hacc List.not_mem_nil
  | cons seg segs ih =>
      rw [List.map_cons, List.sum_cons, ← Nat.add_assoc] at h
      intro acc hacc
      rcases List.mem_cons.mp hacc with rfl | hacc
      · exact Nat.le_of_add_right_le h
      · exact ih h acc hacc

end Queue

/-! ## Result -/

/-- **The device refines a plaintext disk.** For every finite queue of requests of
the file system that lie on the device, `sbd_crypt_request` runs to its end with
the queue empty. Every segment is completed once, in order and without an error,
and every read delivers the plaintext of the sectors written before it. In the
end the written sectors hold the encryption of the last plaintext written to
them, and all other bytes of the device are as they were. -/
theorem device_refines_disk (cfg : Config 16 κ) (hcfg : Assumptions cfg)
    (data disk : Nat → UInt8) (queue : List Request)
    (hfs : ∀ req ∈ queue, req.cmdType = .fs)
    (hin : ∀ req ∈ queue, req.pos + req.sectors ≤ cfg.nsectors) :
    ∃ run, (∀ fuel, work queue < fuel →
        sbdCryptRequest cfg fuel (sbdCryptInit cfg data) queue = some run) ∧
      run.fault = false ∧ run.queue = [] ∧
      (plainDisk cfg data).Completes (.blank disk) (accesses queue) run.log ∧
      Refines cfg data ((accesses queue).foldl Plain.apply (.blank disk)) run.dev.data := by
  have hinside : ∀ acc ∈ accesses queue, acc.pos + acc.sectors ≤ cfg.nsectors := by
    intro acc hacc
    obtain ⟨req, hreq, hacc⟩ := List.mem_flatMap.mp hacc
    exact accessesFrom_inside (hin req hreq) acc hacc
  have hstart : (plainDisk cfg data).describes (.blank disk) (sbdCryptInit cfg data) :=
    ⟨refines_blank cfg data disk, hcfg.init_size data⟩
  obtain ⟨run, hrun, hfault, hqueue, hdone, hfinal, -⟩ := (steps_plainDisk hcfg).ends hfs hinside
    (fun _ _ => not_faults_of_readable hcfg.page) hstart
  exact ⟨run, hrun, hfault, hqueue, hdone, hfinal⟩

/-- AES-128 under `passwordpassword`, as far as blocks of zeros go: it exchanges
that block with its encryption. -/
def aesZero : Cipher 16 String :=
  let f : (Fin 16 → UInt8) → Fin 16 → UInt8 := Equiv.swap (fun _ => 0)
    ![0x46, 0xdb, 0x06, 0x6e, 0xd3, 0xda, 0x10, 0xcd, 0x3c, 0x66, 0x3e, 0x30, 0x71, 0xcb,
      0xfc, 0x87]
  ⟨fun _ => f, fun _ => f⟩

/-- The defaults of the module, on i386. -/
def defaultsOn (readable : Nat → Bool) : Config 16 String :=
  ⟨32, 512, 1024, aesZero, "passwordpassword", 0xf8000000, readable⟩

/-- With a page at address 0, as a process may have one. -/
def defaults : Config 16 String := defaultsOn fun _ => true

theorem defaults_assumptions : Assumptions defaults where
  word := by decide
  block := rfl
  fits := by decide
  page _ _ := rfl
  undo w := Equiv.swap_apply_self _ _ w

/-- Two sectors of zeros written to sectors 3 and 4, as two segments, and the
second of them read back. -/
def writeThenRead : List Request :=
  [⟨.fs, 3, true, [⟨1, fun _ => 0⟩, ⟨1, fun _ => 0⟩]⟩, ⟨.fs, 4, false, [⟨1, fun _ => 7⟩]⟩]

theorem device_refines_disk_defaults : ∃ run,
    sbdCryptRequest defaults 6 (sbdCryptInit defaults fun _ => 1) writeThenRead = some run ∧
      (plainDisk defaults fun _ => 1).Completes (.blank fun _ => 0) (accesses writeThenRead)
        run.log ∧
      run.dev.data (4 * 512) = 0x46 ∧ run.dev.data 0 = 1 := by
  obtain ⟨run, hrun, -, -, hdone, hfinal⟩ := device_refines_disk defaults defaults_assumptions
    (fun _ => 1) (fun _ => 0) writeThenRead (by simp [writeThenRead])
    (by simp [writeThenRead, Request.sectors, defaults, defaultsOn])
  have hdisk : ((accesses writeThenRead).foldl Plain.apply (.blank fun _ => 0)).disk =
      fun _ => 0 := by
    simp [accesses, writeThenRead, Request.accesses, accessesFrom, Plain.apply, Plain.blank]
  have hwritten : ∀ sector, ((accesses writeThenRead).foldl Plain.apply
      (.blank fun _ => 0)).written sector ↔ sector = 3 ∨ sector = 4 := by
    intro sector
    have hspan : ∀ pos : Nat, pos ≤ sector ∧ sector < pos + 1 ↔ sector = pos := by omega
    simp [accesses, writeThenRead, Request.accesses, accessesFrom, Plain.apply, Plain.blank,
      Access.covers, hspan]
  refine ⟨run, hrun 6 (by decide), hdone, ?_, ?_⟩
  · rw [hfinal.written (4 * 512) ((hwritten _).mpr (by decide)), hdisk]
    decide +kernel
  · exact hfinal.other 0 fun h => absurd ((hwritten _).mp h) (by decide)

end OsProjects.BlockDevice
