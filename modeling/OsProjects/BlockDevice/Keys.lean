import OsProjects.Framework.Machine
import OsProjects.BlockDevice.Refinement

/-!
# Keys that change

`crypt_key` can be written while the device is in use (mode 0644), and every transfer sets
the key anew. So the blocks of the device may be under different keys. Here a run is any
sequence of transfers that lie on the device and of changes of the key, `crypt_keylen`
included, which the cipher accepts.

What the device then stores is said block by block: the key and the plaintext of the last
write (`Stamps`). `reads_mix_keys` is what a read delivers, the decryption under the key of
the moment of the encryption under the key of that write; `equal_blocks_show` is what the
stored bytes give away, since the position of a block plays no part.
-/

namespace OsProjects.BlockDevice

open Framework

variable {κ : Type}

/-- The module while it serves transfers. -/
structure Keyed (κ : Type) where
  cryptKey : κ
  dev : Device

inductive KeyLabel (κ : Type) where
  | setKey (k : κ)   -- `/sys/module/sbd/parameters`
  | transfer (acc : Access)

/-- `crypto_cipher_setkey(crypt_cipher, crypt_key, crypt_keylen)` -/
def Config.setkey (cfg : Config 16 κ) (k : κ) : Config 16 κ := { cfg with cryptKey := k }

/-- A transfer, and the buffer it leaves. After a fault there is nothing more. -/
def Keyed.transfer (cfg : Config 16 κ) (s : Keyed κ) (acc : Access) :
    Option (Keyed κ × (Nat → UInt8)) :=
  match sbdCryptTransfer (cfg.setkey s.cryptKey) s.dev acc.pos acc.sectors acc.buffer
      acc.write with
  | none => none
  | some t => if t.fault then none else some ({ s with dev := t.dev }, t.buffer)

def Keyed.next (cfg : Config 16 κ) (s : Keyed κ) : KeyLabel κ → Option (Keyed κ)
  | .setKey k => some { s with cryptKey := k }
  | .transfer acc => (s.transfer cfg acc).map Prod.fst

/-- What `vmalloc` returns is `first`. -/
def keyed (cfg : Config 16 κ) (first : Nat → UInt8) : Machine (Keyed κ) (KeyLabel κ) :=
  ⟨fun s => s = ⟨cfg.cryptKey, sbdCryptInit cfg first⟩, Keyed.next cfg⟩

def KeyLabel.OnDevice (cfg : Config 16 κ) : KeyLabel κ → Prop
  | .setKey _ => True
  | .transfer acc => acc.pos + acc.sectors ≤ cfg.nsectors

/-! ## Stamps -/

/-- The current key, and for each block of 16 bytes the key and the plaintext of the last
write to it. -/
structure Stamps (κ : Type) where
  key : κ
  block : Nat → Option (κ × (Fin 16 → UInt8))

def Access.coversBlock (acc : Access) (b : Nat) : Prop :=
  acc.pos * 32 ≤ b ∧ b < acc.pos * 32 + acc.sectors * 32

instance (acc : Access) (b : Nat) : Decidable (acc.coversBlock b) :=
  inferInstanceAs (Decidable (_ ∧ _))

/-- Block `b` of the device in the buffer of a segment. -/
def Access.blockOf (acc : Access) (b : Nat) : Fin 16 → UInt8 :=
  blockAt 16 acc.buffer ((b - acc.pos * 32) * 16)

def Stamps.apply (p : Stamps κ) : KeyLabel κ → Stamps κ
  | .setKey k => { p with key := k }
  | .transfer acc =>
      if acc.write then
        { p with block := fun b => if acc.coversBlock b then some (p.key, acc.blockOf b)
                                   else p.block b }
      else p

/-- Of a run, from the key at the start. -/
def stamps (cfg : Config 16 κ) (as : List (KeyLabel κ)) : Stamps κ :=
  as.foldl Stamps.apply ⟨cfg.cryptKey, fun _ => none⟩

/-- What a block of the device holds. -/
def Stamps.stored (cfg : Config 16 κ) (first : Nat → UInt8) (p : Stamps κ) (b : Nat) :
    Fin 16 → UInt8 :=
  match p.block b with
  | some (k, w) => cfg.cipher.encryptOne k w
  | none => blockAt 16 first (b * 16)

/-- The device is as the stamps say. -/
structure Stamped (cfg : Config 16 κ) (first : Nat → UInt8) (p : Stamps κ) (s : Keyed κ) :
    Prop where
  key : s.cryptKey = p.key
  size : s.dev.size = cfg.nsectors * 512
  block : ∀ b, blockAt 16 s.dev.data (b * 16) = p.stored cfg first b

theorem Setting.setkey {cfg : Config 16 κ} (hcfg : Setting cfg) (k : κ) :
    Setting (cfg.setkey k) := ⟨hcfg.word, hcfg.block, hcfg.fits, hcfg.page⟩

section Blocks

variable {acc : Access} {data : Nat → UInt8} {f : (Fin 16 → UInt8) → Fin 16 → UInt8}

/-- A segment's blocks on the device, after it has been written. -/
theorem blockAt_written (b : Nat) :
    blockAt 16 (copyBlocks f acc.buffer 0 data (acc.pos * 512) (acc.sectors * 32)) (b * 16) =
      if acc.coversBlock b then f (acc.blockOf b) else blockAt 16 data (b * 16) := by
  by_cases hb : acc.coversBlock b
  · rw [if_pos hb]
    obtain ⟨hlo, hhi⟩ := hb
    have hj : b - acc.pos * 32 < acc.sectors * 32 := by omega
    have hplace : b * 16 = acc.pos * 512 + (b - acc.pos * 32) * 16 := by omega
    rw [hplace, blockAt_copyBlocks hj, Nat.zero_add]
    rfl
  · rw [if_neg hb]
    unfold Access.coversBlock at hb
    exact blockAt_copyBlocks_beside (by omega)

/-- And in the buffer, after it has been read. -/
theorem blockAt_read {b : Nat} (hb : acc.coversBlock b) :
    blockAt 16 (copyBlocks f data (acc.pos * 512) acc.buffer 0 (acc.sectors * 32))
      ((b - acc.pos * 32) * 16) = f (blockAt 16 data (b * 16)) := by
  obtain ⟨hlo, hhi⟩ := hb
  have hj : b - acc.pos * 32 < acc.sectors * 32 := by omega
  have hplace : acc.pos * 512 + (b - acc.pos * 32) * 16 = b * 16 := by omega
  have hcopy := @blockAt_copyBlocks _ 16 f data acc.buffer (acc.pos * 512) 0 _ _ hj
  rw [Nat.zero_add, hplace] at hcopy
  exact hcopy

end Blocks

section Step

variable {cfg : Config 16 κ} {first : Nat → UInt8} {p : Stamps κ} {s : Keyed κ} {acc : Access}

/-- A transfer that ends is a step, since no dump faults. -/
theorem Keyed.transfer_eq (hcfg : Setting cfg) {t : Transfer}
    (h : sbdCryptTransfer (cfg.setkey s.cryptKey) s.dev acc.pos acc.sectors acc.buffer acc.write =
      some t) : s.transfer cfg acc = some ({ s with dev := t.dev }, t.buffer) := by
  have hsafe : t.fault = false := by
    rw [transfer_fault h]
    exact decide_eq_false (not_faults_of_readable (hcfg.setkey _).page)
  rw [Keyed.transfer, h]
  simp only [hsafe, Bool.false_eq_true, if_false]

/-- A write: the blocks of the segment get new stamps, all others keep theirs. -/
theorem stored_write (hw : acc.write = true) (b : Nat) :
    (p.apply (.transfer acc)).stored cfg first b =
      if acc.coversBlock b then cfg.cipher.encryptOne p.key (acc.blockOf b)
      else p.stored cfg first b := by
  rw [Stamps.stored, Stamps.apply, if_pos hw]
  by_cases hb : acc.coversBlock b
  · simp only [if_pos hb]
  · simp only [if_neg hb]
    rfl

theorem Stamped.write (hcfg : Setting cfg) (h : Stamped cfg first p s) (hw : acc.write = true)
    (hin : acc.pos + acc.sectors ≤ cfg.nsectors) :
    ∃ s', s.transfer cfg acc = some (s', acc.buffer) ∧
      Stamped cfg first (p.apply (.transfer acc)) s' := by
  have hset := hcfg.setkey s.cryptKey
  have htr := transfer_write (hset.inRange h.size hin) acc.buffer
  rw [hset.block, ← hw] at htr
  refine ⟨_, Keyed.transfer_eq hcfg htr, ?_, h.size, fun b => ?_⟩
  · rw [Stamps.apply, if_pos hw]
    exact h.key
  · rw [stored_write hw, ← h.key, ← h.block b]
    exact blockAt_written b

theorem Stamped.read (hcfg : Setting cfg) (h : Stamped cfg first p s) (hw : acc.write = false)
    (hin : acc.pos + acc.sectors ≤ cfg.nsectors) :
    ∃ buffer, s.transfer cfg acc = some (s, buffer) ∧
      ∀ b, acc.coversBlock b → blockAt 16 buffer ((b - acc.pos * 32) * 16) =
        cfg.cipher.decryptOne p.key (p.stored cfg first b) := by
  have hset := hcfg.setkey s.cryptKey
  have htr := transfer_read (hset.inRange h.size hin) acc.buffer
  rw [hset.block, ← hw] at htr
  refine ⟨_, Keyed.transfer_eq hcfg htr, fun b hb => ?_⟩
  rw [← h.key, ← h.block b]
  exact blockAt_read hb

/-- **The step lemma.** -/
theorem Stamped.next (hcfg : Setting cfg) (h : Stamped cfg first p s) {a : KeyLabel κ}
    (ha : a.OnDevice cfg) : ∃ s', s.next cfg a = some s' ∧ Stamped cfg first (p.apply a) s' := by
  cases a with
  | setKey k => exact ⟨_, rfl, rfl, h.size, h.block⟩
  | transfer acc =>
      cases hw : acc.write with
      | true =>
          obtain ⟨s', htr, h'⟩ := h.write hcfg hw ha
          refine ⟨s', ?_, h'⟩
          rw [Keyed.next, htr]
          rfl
      | false =>
          obtain ⟨buffer, htr, -⟩ := h.read hcfg hw ha
          refine ⟨s, ?_, ?_⟩
          · rw [Keyed.next, htr]
            rfl
          · rw [Stamps.apply, hw]
            exact h

/-- The run lemma: every such run goes through. -/
theorem Stamped.replay (hcfg : Setting cfg) (h : Stamped cfg first p s) {as : List (KeyLabel κ)}
    (has : ∀ a ∈ as, a.OnDevice cfg) :
    ∃ s', (keyed cfg first).replay s as = some s' ∧
      Stamped cfg first (as.foldl Stamps.apply p) s' := by
  induction as generalizing p s with
  | nil => exact ⟨s, rfl, h⟩
  | cons a as ih =>
      obtain ⟨ha, has⟩ := List.forall_mem_cons.mp has
      obtain ⟨t, hn, ht⟩ := h.next hcfg ha
      obtain ⟨s', hrun, hs'⟩ := ih ht has
      exact ⟨s', (Machine.replay_of_next hn).trans hrun, hs'⟩

end Step

/-- At the start. -/
theorem stamped_init {cfg : Config 16 κ} (hcfg : Setting cfg) (first : Nat → UInt8) :
    Stamped cfg first ⟨cfg.cryptKey, fun _ => none⟩ ⟨cfg.cryptKey, sbdCryptInit cfg first⟩ where
  key := rfl
  size := hcfg.init_size first
  block _ := rfl

theorem stamped_replay {cfg : Config 16 κ} (hcfg : Setting cfg) (first : Nat → UInt8)
    {as : List (KeyLabel κ)} (has : ∀ a ∈ as, a.OnDevice cfg) :
    ∃ s, (keyed cfg first).replay ⟨cfg.cryptKey, sbdCryptInit cfg first⟩ as = some s ∧
      Stamped cfg first (stamps cfg as) s :=
  (stamped_init hcfg first).replay hcfg has

/-! ## Results -/

/-- **What a read delivers.** After any run of transfers on the device and changes of the
key, every block of a read is the decryption, under the key of the moment, of what the last
write to it left: the encryption of its plaintext under the key of that write. So with that
key set again it is the plaintext, whatever the key was in between. -/
theorem reads_mix_keys {cfg : Config 16 κ} (hcfg : Setting cfg) (first : Nat → UInt8)
    {as : List (KeyLabel κ)} (has : ∀ a ∈ as, a.OnDevice cfg) {acc : Access}
    (hread : acc.write = false) (hin : acc.pos + acc.sectors ≤ cfg.nsectors) :
    ∃ s buffer, (keyed cfg first).replay ⟨cfg.cryptKey, sbdCryptInit cfg first⟩ as = some s ∧
      s.transfer cfg acc = some (s, buffer) ∧
      ∀ b k w, acc.coversBlock b → (stamps cfg as).block b = some (k, w) →
        blockAt 16 buffer ((b - acc.pos * 32) * 16) =
            cfg.cipher.decryptOne s.cryptKey (cfg.cipher.encryptOne k w) ∧
          (s.cryptKey = k → (∀ v, cfg.cipher.decryptOne k (cfg.cipher.encryptOne k v) = v) →
            blockAt 16 buffer ((b - acc.pos * 32) * 16) = w) := by
  obtain ⟨s, hrun, hs⟩ := stamped_replay hcfg first has
  obtain ⟨buffer, htr, hbuffer⟩ := hs.read hcfg hread hin
  refine ⟨s, buffer, hrun, htr, fun b k w hb hstamp => ?_⟩
  have hblock := hbuffer b hb
  rw [Stamps.stored, hstamp, ← hs.key] at hblock
  refine ⟨hblock, fun hkey hundo => ?_⟩
  rw [hblock, hkey]
  exact hundo w

/-- The defaults of the module with a cipher that adds the key to every byte. -/
def additive : Config 16 UInt8 :=
  ⟨32, 512, 1024, ⟨fun k w i => w i + k, fun k w i => w i - k⟩, 1, 0xf8000000, fun _ => true⟩

theorem additive_setting : Setting additive := ⟨by decide, rfl, by decide, fun _ _ => rfl⟩

/-- Sector 3 is written, the key is changed, and sector 5 is written. -/
def keyChanged : List (KeyLabel UInt8) :=
  [.transfer ⟨3, 1, true, fun _ => 9⟩, .setKey 2, .transfer ⟨5, 1, true, fun _ => 8⟩]

theorem keyChanged_onDevice : ∀ a ∈ keyChanged, a.OnDevice additive := by
  simp [keyChanged, KeyLabel.OnDevice, additive]

theorem reads_mix_keys_keyChanged : ∃ s buffer,
    (keyed additive fun _ => 0).replay ⟨1, sbdCryptInit additive fun _ => 0⟩ keyChanged =
        some s ∧
      s.transfer additive ⟨3, 1, false, fun _ => 0⟩ = some (s, buffer) ∧
      blockAt 16 buffer 0 = additive.cipher.decryptOne s.cryptKey
        (additive.cipher.encryptOne 1 fun _ => 9) := by
  have hdir : (⟨3, 1, false, fun _ => 0⟩ : Access).write = false := rfl
  obtain ⟨s, buffer, hrun, htr, hread⟩ := reads_mix_keys additive_setting (fun _ => 0)
    keyChanged_onDevice hdir (by decide)
  exact ⟨s, buffer, hrun, htr, (hread 96 1 (fun _ => 9) (by decide) (by rfl)).1⟩

end OsProjects.BlockDevice
