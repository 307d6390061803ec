import OsProjects.Framework.Bytes
import OsProjects.Framework.Extents

/-!
# SLOB free blocks: the encoding inside free memory

`project4/code/slob.c`, lines 79-197. A `slob_t *` is counted in units of
`SLOB_UNIT` bytes, as C pointer arithmetic on it is: the pointer `s` has byte
address `SLOB_UNIT * s`, and `s[1]` is the unit `s + 1`. The target is i386:
`PAGE_SIZE` is 4096, so `slobidx_t` is `s16`.

- `setSlob`, `slobUnits`, `slobNext`, `slobLast` — the four accessors.
- `Encoded m e next` — what `setSlob` leaves behind for the free block `e`. It
  reads only the units of `e`; this is where the one-unit block with its
  different encoding is told apart from the others.
- `Linked m tail fl` — the blocks of `fl` are encoded and chained, the last one
  pointing to `tail`; `decode` walks such a chain as the code does.
-/

namespace OsProjects.Slob

open Framework

/-! ## Constants and machine types -/

def PAGE_SIZE : Nat := 4096

/-- `sizeof(slob_t)`, with `slobidx_t` an `s16`. -/
def SLOB_UNIT : Nat := 2

/-- `DIV_ROUND_UP(size, SLOB_UNIT)`, in 32-bit `size_t` arithmetic. -/
def SLOB_UNITS (size : Nat) : Nat := (size + SLOB_UNIT - 1) % 2 ^ 32 / SLOB_UNIT

/-- Conversion to `slobidx_t`. -/
def slobidx (v : Int) : Int := v.bmod 65536

@[simp] theorem SLOB_UNITS_PAGE_SIZE : SLOB_UNITS PAGE_SIZE = 2048 := rfl

theorem SLOB_UNITS_eq {size : Nat} (h : size ≤ PAGE_SIZE) :
    SLOB_UNITS size = (size + 1) / 2 := by
  unfold PAGE_SIZE at h
  unfold SLOB_UNITS SLOB_UNIT
  omega

theorem SLOB_UNITS_pos {size : Nat} (h0 : 0 < size) (h : size ≤ PAGE_SIZE) :
    0 < SLOB_UNITS size := by
  rw [SLOB_UNITS_eq h]
  omega

theorem SLOB_UNITS_le {size : Nat} (h : size ≤ PAGE_SIZE) : SLOB_UNITS size ≤ 2048 := by
  rw [SLOB_UNITS_eq h]
  unfold PAGE_SIZE at h
  omega

theorem slobidx_of_lt {v : Int} (hlo : -32768 ≤ v) (hhi : v < 32768) : slobidx v = v :=
  Int.bmod_eq_of_le_mul_two (by omega) (by omega)

/-- `s->units`. -/
def readUnit (m : Mem) (s : Nat) : Int := readSigned m (SLOB_UNIT * s) SLOB_UNIT

/-- `s->units = v`. -/
def writeUnit (m : Mem) (s : Nat) (v : Int) : Mem :=
  writeSigned m (SLOB_UNIT * s) SLOB_UNIT v

/-- `(slob_t *)((unsigned long)s & PAGE_MASK)`. -/
def pageMask (s : Nat) : Nat := s / SLOB_UNITS PAGE_SIZE * SLOB_UNITS PAGE_SIZE

/-! ## The accessors -/

/-- Encode the given size and next info into a free slob block `s`. -/
@[irreducible]
def setSlob (m : Mem) (s : Nat) (size : Int) (next : Nat) : Mem :=
  let size := slobidx size
  let offset := slobidx ((next : Int) - pageMask s)
  if size > 1 then
    writeUnit (writeUnit m s size) (s + 1) offset
  else
    writeUnit m s (-offset)

/-- The size of a slob block; always at least one. -/
def slobUnits (m : Mem) (s : Nat) : Nat :=
  if readUnit m s > 0 then (readUnit m s).toNat else 1

/-- The next free slob block pointer after this one. -/
def slobNext (m : Mem) (s : Nat) : Nat :=
  let next := if readUnit m s < 0 then slobidx (-readUnit m s) else readUnit m (s + 1)
  ((pageMask s : Int) + next).toNat

/-- `s` is the last free block in its page: `slob_next` is page aligned. -/
def slobLast (m : Mem) (s : Nat) : Bool := slobNext m s % SLOB_UNITS PAGE_SIZE == 0

/-! ## Pages -/

def pageStart (pn : Nat) : Nat := pn * 2048

def pageStop (pn : Nat) : Nat := (pn + 1) * 2048

theorem pageStop_eq (pn : Nat) : pageStop pn = pageStart pn + 2048 := by
  unfold pageStart pageStop
  omega

/-- The extent lies in page `pn`. -/
def InPage (pn : Nat) (e : Ext) : Prop := e.Within (pageStart pn) (pageStop pn)

theorem pageMask_eq {pn s : Nat} (hlo : pageStart pn ≤ s) (hhi : s < pageStop pn) :
    pageMask s = pageStart pn := by
  unfold pageMask pageStart pageStop at *
  rw [SLOB_UNITS_PAGE_SIZE]
  omega

theorem InPage.pageMask {pn : Nat} {e : Ext} (h : InPage pn e) (hpos : 0 < e.len) :
    pageMask e.start = pageStart pn := by
  unfold InPage Ext.Within Ext.stop at h
  exact pageMask_eq h.1 (by omega)

theorem InPage.of_within {pn : Nat} {e f : Ext} (h : InPage pn e)
    (h1 : e.start ≤ f.start) (h2 : f.stop ≤ e.stop) : InPage pn f :=
  ⟨Nat.le_trans h.1 h1, Nat.le_trans h2 h.2⟩

/-! ## Single units -/

theorem readUnit_writeUnit {m : Mem} {s : Nat} {v : Int}
    (hlo : -32768 ≤ v) (hhi : v < 32768) : readUnit (writeUnit m s v) s = v := by
  apply readSigned_writeSigned_of_lt <;> simp only [SLOB_UNIT] <;> omega

theorem writeUnit_frame {m : Mem} {s x : Nat} {v : Int}
    (h : x < 2 * s ∨ 2 * (s + 1) ≤ x) : writeUnit m s v x = m x :=
  writeSigned_frame (by simp only [SLOB_UNIT]; omega)

theorem readUnit_congr {m m' : Mem} {s : Nat}
    (h : ∀ x, 2 * s ≤ x → x < 2 * (s + 1) → m' x = m x) :
    readUnit m' s = readUnit m s :=
  readSigned_congr fun x h1 h2 => h x h1 (by simp only [SLOB_UNIT] at h2; omega)

theorem readUnit_writeUnit_ne {m : Mem} {s t : Nat} {v : Int} (h : s ≠ t) :
    readUnit (writeUnit m s v) t = readUnit m t :=
  readUnit_congr fun _ _ _ => writeUnit_frame (by omega)

/-! ## Encoded blocks -/

/-- Memory holds the free block `e` with successor `next`, as `setSlob` writes
it: size and offset in two units, or the negated offset in a single one. -/
def Encoded (m : Mem) (e : Ext) (next : Nat) : Prop :=
  if 1 < e.len then
    readUnit m e.start = e.len ∧
      readUnit m (e.start + 1) = (next : Int) - pageMask e.start
  else
    readUnit m e.start = -((next : Int) - pageMask e.start)

/-- Only the units of the block itself are read. -/
theorem Encoded.congr {m m' : Mem} {e : Ext} {next : Nat} (h : Encoded m e next)
    (hpos : 0 < e.len)
    (heq : ∀ x, 2 * e.start ≤ x → x < 2 * e.stop → m' x = m x) :
    Encoded m' e next := by
  have h0 : readUnit m' e.start = readUnit m e.start :=
    readUnit_congr fun x h1 h2 => heq x h1 (by unfold Ext.stop; omega)
  unfold Encoded at *
  split
  · rename_i hlen
    rw [if_pos hlen] at h
    have h1 : readUnit m' (e.start + 1) = readUnit m (e.start + 1) :=
      readUnit_congr fun x h1 h2 => heq x (by omega) (by unfold Ext.stop; omega)
    rw [h0, h1]
    exact h
  · rename_i hlen
    rw [if_neg hlen] at h
    rw [h0]
    exact h

/-- A block in page `pn` together with a successor pointer that `setSlob` can
encode: beyond the page's start, at most its end. -/
structure Slot (pn : Nat) (e : Ext) (next : Nat) : Prop where
  inPage : InPage pn e
  pos : 0 < e.len
  lo : pageStart pn < next
  hi : next ≤ pageStop pn

section Slot

variable {pn : Nat} {e : Ext} {next : Nat}

theorem Slot.base (h : Slot pn e next) : pageMask e.start = pageStart pn :=
  h.inPage.pageMask h.pos

theorem Slot.len_le (h : Slot pn e next) : e.len ≤ 2048 := by
  have h1 := h.inPage
  have h2 := pageStop_eq pn
  unfold InPage Ext.Within Ext.stop at h1
  omega

theorem Slot.offset (h : Slot pn e next) :
    0 < (next : Int) - pageMask e.start ∧ (next : Int) - pageMask e.start ≤ 2048 := by
  have h1 := h.lo
  have h2 := h.hi
  rw [pageStop_eq] at h2
  rw [h.base]
  omega

theorem Encoded.slobUnits {m : Mem} (h : Encoded m e next) (hs : Slot pn e next) :
    slobUnits m e.start = e.len := by
  have hpos := hs.pos
  have hoff := hs.offset
  unfold Encoded at h
  unfold Slob.slobUnits
  split at h
  · rw [h.1, if_pos (by omega), Int.toNat_natCast]
  · rw [h, if_neg (by omega)]
    omega

theorem Encoded.slobNext {m : Mem} (h : Encoded m e next) (hs : Slot pn e next) :
    slobNext m e.start = next := by
  have hpos := hs.pos
  have hoff := hs.offset
  have hbase : pageMask e.start ≤ next := by omega
  unfold Encoded at h
  simp only [Slob.slobNext]
  split at h
  · rw [if_neg (by omega), h.2]
    omega
  · rw [if_pos (by omega), h, Int.neg_neg, slobidx_of_lt (by omega) (by omega)]
    omega

theorem Encoded.slobLast {m : Mem} (h : Encoded m e next) (hs : Slot pn e next) :
    slobLast m e.start = true ↔ next = pageStop pn := by
  have hlo := hs.lo
  have hhi := hs.hi
  rw [Slob.slobLast, h.slobNext hs, SLOB_UNITS_PAGE_SIZE, beq_iff_eq]
  unfold pageStart pageStop at *
  omega

/-- **What `setSlob` writes is what the accessors read back.** -/
theorem encoded_setSlob (m : Mem) (hs : Slot pn e next) :
    Encoded (setSlob m e.start e.len next) e next := by
  have hpos := hs.pos
  have hlen := hs.len_le
  have hoff := hs.offset
  have hsz : slobidx (e.len : Int) = e.len := slobidx_of_lt (by omega) (by omega)
  have hof : slobidx ((next : Int) - pageMask e.start) = next - pageMask e.start :=
    slobidx_of_lt (by omega) (by omega)
  unfold Encoded
  simp only [setSlob, hsz, hof]
  by_cases h1 : 1 < e.len
  · rw [if_pos h1, if_pos (by omega)]
    refine ⟨?_, readUnit_writeUnit (by omega) (by omega)⟩
    rw [readUnit_writeUnit_ne (by omega)]
    exact readUnit_writeUnit (by omega) (by omega)
  · rw [if_neg h1, if_neg (by omega)]
    exact readUnit_writeUnit (by omega) (by omega)

/-- `setSlob` writes only inside the block it encodes: one unit of a one-unit
block, the first two of any other. -/
theorem setSlob_frame {m : Mem} {s size next x : Nat} (hpos : 0 < size)
    (hsize : size ≤ 2048) (hx : x < 2 * s ∨ 2 * (s + size) ≤ x) :
    setSlob m s size next x = m x := by
  have hsz : slobidx (size : Int) = size := slobidx_of_lt (by omega) (by omega)
  simp only [setSlob, hsz]
  split
  · rw [writeUnit_frame (by omega), writeUnit_frame (by omega)]
  · exact writeUnit_frame (by omega)

/-- Re-encoding one block leaves every block apart from it encoded. -/
theorem Encoded.setSlob {m : Mem} {f : Ext} {next' : Nat} (h : Encoded m f next')
    (hf : 0 < f.len) (hs : Slot pn e next) (hap : e.Apart f) :
    Encoded (setSlob m e.start e.len next) f next' := by
  refine h.congr hf fun x h1 h2 => setSlob_frame hs.pos hs.len_le ?_
  unfold Ext.Apart Ext.stop at *
  omega

end Slot

/-! ## Chains of free blocks -/

/-- The pointer to a chain: its first block, or `tail` when there is none. -/
def headOr (tail : Nat) : List Ext → Nat
  | [] => tail
  | e :: _ => e.start

/-- Every block of the list is encoded with the next one as its successor; the
last one points to `tail`. -/
def Linked (m : Mem) (tail : Nat) : List Ext → Prop
  | [] => True
  | e :: es => Encoded m e (headOr tail es) ∧ Linked m tail es

theorem headOr_append (tail : Nat) : ∀ xs ys : List Ext,
    headOr tail (xs ++ ys) = headOr (headOr tail ys) xs
  | [], _ => rfl
  | _ :: _, _ => rfl

theorem linked_append {m : Mem} {tail : Nat} : ∀ {xs ys : List Ext},
    Linked m tail (xs ++ ys) ↔ Linked m (headOr tail ys) xs ∧ Linked m tail ys
  | [], ys => by simp [Linked]
  | x :: xs, ys => by
      rw [List.cons_append, Linked, Linked, linked_append, headOr_append, and_assoc]

theorem Linked.congr {m m' : Mem} {tail : Nat} : ∀ {fl : List Ext},
    Linked m tail fl → (∀ e ∈ fl, 0 < e.len) →
    (∀ e ∈ fl, ∀ x, 2 * e.start ≤ x → x < 2 * e.stop → m' x = m x) →
    Linked m' tail fl
  | [], _, _, _ => trivial
  | e :: _, h, hpos, heq =>
      ⟨h.1.congr (hpos e List.mem_cons_self) (heq e List.mem_cons_self),
        h.2.congr (fun f hf => hpos f (List.mem_cons_of_mem _ hf))
          fun f hf => heq f (List.mem_cons_of_mem _ hf)⟩

/-- Re-encoding a block apart from the whole chain keeps the chain. -/
theorem Linked.setSlob {m : Mem} {pn tail : Nat} {e : Ext} {next : Nat} :
    ∀ {fl : List Ext}, Linked m tail fl → (∀ f ∈ fl, 0 < f.len) →
    Slot pn e next → (∀ f ∈ fl, e.Apart f) →
    Linked (setSlob m e.start e.len next) tail fl
  | [], _, _, _, _ => trivial
  | f :: _, h, hpos, hs, hap =>
      ⟨h.1.setSlob (hpos f List.mem_cons_self) hs (hap f List.mem_cons_self),
        h.2.setSlob (fun g hg => hpos g (List.mem_cons_of_mem _ hg)) hs
          fun g hg => hap g (List.mem_cons_of_mem _ hg)⟩

/-! ## Blocks laid out in one page -/

/-- Non-empty blocks of page `pn` in address order. They may touch, as they do
for a moment while an allocation splits a block. -/
structure Laid (pn : Nat) (es : List Ext) : Prop where
  pos : ∀ e ∈ es, 0 < e.len
  inPage : ∀ e ∈ es, InPage pn e
  ord : es.Pairwise fun e f => e.stop ≤ f.start

theorem laid_append {pn : Nat} {xs ys : List Ext} :
    Laid pn (xs ++ ys) ↔
      Laid pn xs ∧ Laid pn ys ∧ ∀ x ∈ xs, ∀ y ∈ ys, x.stop ≤ y.start := by
  constructor
  · rintro ⟨hpos, hin, hord⟩
    obtain ⟨h1, h2, h3⟩ := List.pairwise_append.mp hord
    exact ⟨⟨fun e he => hpos e (List.mem_append_left _ he),
        fun e he => hin e (List.mem_append_left _ he), h1⟩,
      ⟨fun e he => hpos e (List.mem_append_right _ he),
        fun e he => hin e (List.mem_append_right _ he), h2⟩, h3⟩
  · rintro ⟨h1, h2, h3⟩
    refine ⟨?_, ?_, List.pairwise_append.mpr ⟨h1.ord, h2.ord, h3⟩⟩
    · intro e he
      rcases List.mem_append.mp he with he | he
      · exact h1.pos e he
      · exact h2.pos e he
    · intro e he
      rcases List.mem_append.mp he with he | he
      · exact h1.inPage e he
      · exact h2.inPage e he

theorem laid_cons {pn : Nat} {e : Ext} {es : List Ext} :
    Laid pn (e :: es) ↔
      0 < e.len ∧ InPage pn e ∧ (∀ f ∈ es, e.stop ≤ f.start) ∧ Laid pn es := by
  constructor
  · rintro ⟨hpos, hin, hord⟩
    rcases List.pairwise_cons.mp hord with ⟨h1, h2⟩
    exact ⟨hpos e List.mem_cons_self, hin e List.mem_cons_self, h1,
      ⟨fun f hf => hpos f (List.mem_cons_of_mem _ hf),
        fun f hf => hin f (List.mem_cons_of_mem _ hf), h2⟩⟩
  · rintro ⟨h0, h1, h2, h3⟩
    refine ⟨?_, ?_, List.pairwise_cons.mpr ⟨h2, h3.ord⟩⟩
    · intro f hf
      rcases List.mem_cons.mp hf with rfl | hf
      · exact h0
      · exact h3.pos f hf
    · intro f hf
      rcases List.mem_cons.mp hf with rfl | hf
      · exact h1
      · exact h3.inPage f hf

theorem laid_of_gapped {pn : Nat} {es : List Ext} (hg : Gapped es)
    (hin : ∀ e ∈ es, InPage pn e) : Laid pn es :=
  ⟨hg.pos, hin, hg.gap.imp fun h => Nat.le_of_lt h⟩

/-- The pointer after the block `e` is one `setSlob` can encode. -/
theorem Laid.slot {pn : Nat} {e : Ext} {es : List Ext} (h : Laid pn (e :: es)) :
    Slot pn e (headOr (pageStop pn) es) := by
  obtain ⟨hpos, he, hafter, hrest⟩ := laid_cons.mp h
  have hstop := pageStop_eq pn
  refine ⟨he, hpos, ?_, ?_⟩
  all_goals
    cases es with
    | nil => simp only [headOr]; omega
    | cons f fs =>
        have h1 := hafter f List.mem_cons_self
        have h2 := hrest.inPage f List.mem_cons_self
        simp only [headOr, InPage, Ext.Within, Ext.stop] at *
        omega

/-! ## Decoding -/

/-- The free list from `s`, read by `slob_next`, `slob_units` and `slob_last`;
`none` when the walk does not end within the fuel. -/
def decode (m : Mem) : Nat → Nat → Option (List Ext)
  | 0, _ => none
  | fuel + 1, s =>
      if slobLast m s then some [⟨s, slobUnits m s⟩]
      else (decode m fuel (slobNext m s)).map fun es => ⟨s, slobUnits m s⟩ :: es

/-- **The decoded free list is the chain.** -/
theorem decode_of_linked {m : Mem} {pn : Nat} : ∀ {es : List Ext} {e : Ext} {fuel : Nat},
    Laid pn (e :: es) → Linked m (pageStop pn) (e :: es) → es.length < fuel →
    decode m fuel e.start = some (e :: es)
  | _, _, 0, _, _, h => absurd h (Nat.not_lt_zero _)
  | [], e, fuel + 1, hlaid, hl, _ => by
      have hs := hlaid.slot
      rw [decode, if_pos ((hl.1.slobLast hs).mpr rfl), hl.1.slobUnits hs]
  | f :: fs, e, fuel + 1, hlaid, hl, hlen => by
      have hs := hlaid.slot
      obtain ⟨-, -, -, hlaid'⟩ := laid_cons.mp hlaid
      obtain ⟨hfpos, hfin, -, -⟩ := laid_cons.mp hlaid'
      have hlast : ¬ slobLast m e.start = true := by
        rw [hl.1.slobLast hs]
        simp only [headOr, InPage, Ext.Within, Ext.stop] at *
        omega
      rw [decode, if_neg hlast, hl.1.slobNext hs, hl.1.slobUnits hs, headOr,
        decode_of_linked hlaid' hl.2 (Nat.lt_of_succ_lt_succ hlen)]
      rfl

/-- A page holds at most as many gapped blocks as it has units. -/
theorem gapped_length_le {pn : Nat} {fl : List Ext} (hg : Gapped fl)
    (hin : ∀ e ∈ fl, InPage pn e) : fl.length ≤ 2048 := by
  have h1 := total_le hg.apart hin
  have h2 := pageStop_eq pn
  have h3 : fl.length ≤ total fl := by
    have hpos := hg.pos
    clear hg hin h1
    induction fl with
    | nil => simp
    | cons e es ih =>
        have h0 := hpos e List.mem_cons_self
        have h4 := ih fun f hf => hpos f (List.mem_cons_of_mem _ hf)
        rw [List.length_cons, total_cons]
        omega
  omega

end OsProjects.Slob
