import OsProjects.Framework.Blockwise

/-!
# The encrypted block device

`sbd.c`: a RAM disk that encrypts every block it stores. `sbd_crypt_transfer`
moves one segment between its buffer and `Device.data`, block by block through
the cipher; `sbd_crypt_request` takes the requests from the queue and transfers
them segment by segment.

Arithmetic is that of the machine: `unsigned long` has `word` bits, the loop
index is an `int`. The cipher and the block layer are the kernel's: the cipher is
a parameter, and of the block layer only what the driver uses is here, a queue of
requests with their segments, of which `__blk_end_request_cur` drops the first.
Loops have fuel; `none` is a loop that has not ended.

A transfer ends with two debug dumps, of the first bytes at `sourc` and at `dest`.
By its declaration, `u8 *sourc, dest;`, the second is no pointer but a byte, and
what is read is somewhere in the first page of memory. Which addresses can be read
is a parameter; if one cannot, the kernel faults, and nothing more is done.
-/

namespace OsProjects.BlockDevice

open Framework

/-! ## Cipher and device -/

/-- A block cipher with blocks of `n` bytes, `crypto_cipher_blocksize`. -/
structure Cipher (n : Nat) (κ : Type) where
  encryptOne : κ → (Fin n → UInt8) → Fin n → UInt8
  decryptOne : κ → (Fin n → UInt8) → Fin n → UInt8

/-- The machine and the module parameters. -/
structure Config (n : Nat) (κ : Type) where
  word : Nat
  logicalBlockSize : Nat
  nsectors : Nat
  cipher : Cipher n κ
  cryptKey : κ
  dataAddr : Nat             -- where `vmalloc` has put `Device.data`
  readable : Nat → Bool      -- the addresses at which there is something to read

structure Device where
  size : Nat
  data : Nat → UInt8

variable {n : Nat} {κ : Type}

/-- An `int`, given by its 32 bits, converted to `unsigned long`. -/
def ofInt (word i : Nat) : Nat := if i < 2 ^ 31 then i else 2 ^ word - (2 ^ 32 - i)

/-- `Device.size = nsectors * logical_block_size`, a product of `int`s. -/
def sbdCryptInit (cfg : Config n κ) (data : Nat → UInt8) : Device :=
  ⟨ofInt cfg.word (cfg.nsectors * cfg.logicalBlockSize % 2 ^ 32), data⟩

/-! ## Transfers -/

/-- `for (i = 0; i < nbytes; i += blocksize)`: a block from `a + i` in `src`
through `f` to `b + i` in `dst`. Also, for each block, where it came from and where
it went. -/
def blockLoop (word nbytes : Nat) (f : (Fin n → UInt8) → Fin n → UInt8)
    (src : Nat → UInt8) (a b : Nat) :
    Nat → Nat → (Nat → UInt8) → Option ((Nat → UInt8) × List (Nat × Nat))
  | 0, _, _ => none
  | fuel + 1, i, dst =>
      let j := ofInt word i
      if j < nbytes then
        let x := (a + j) % 2 ^ word
        let y := (b + j) % 2 ^ word
        (blockLoop word nbytes f src a b fuel ((i + n) % 2 ^ 32)
          (putBlock dst y (f (blockAt n src x)))).map fun out => (out.1, (x, y) :: out.2)
      else some (dst, [])

/-- `crypto_cipher_encrypt_one(crypt_cipher, dev->data + offset + i, buffer + i)` -/
def encryptLoop (cfg : Config n κ) (offset nbytes : Nat) (data buffer : Nat → UInt8) :
    Option ((Nat → UInt8) × List (Nat × Nat)) :=
  blockLoop cfg.word nbytes (cfg.cipher.encryptOne cfg.cryptKey) buffer 0 offset
    (nbytes + 1) 0 data

/-- `crypto_cipher_decrypt_one(crypt_cipher, buffer + i, dev->data + offset + i)` -/
def decryptLoop (cfg : Config n κ) (offset nbytes : Nat) (data buffer : Nat → UInt8) :
    Option ((Nat → UInt8) × List (Nat × Nat)) :=
  blockLoop cfg.word nbytes (cfg.cipher.decryptOne cfg.cryptKey) data offset 0
    (nbytes + 1) 0 buffer

/-- `print_data`: whether there is something to read at every address it looks at. -/
def printData (readable : Nat → Bool) (tmp length : Nat) : Bool :=
  (List.range length).all fun i => readable (tmp + i)

/-- `print_data(sourc, 15)` and `print_data(dest, 15)`. `sourc` is the buffer, `NULL`
from `bio_data` if there are no bytes; `dest` is what a byte keeps of the address
`dev->data + offset`. -/
def dumps (cfg : Config n κ) (offset nsect : Nat) : Bool :=
  (nsect ≠ 0 || printData cfg.readable 0 15) &&
    printData cfg.readable ((cfg.dataAddr + offset) % 256) 15

/-- What a transfer leaves. -/
structure Transfer where
  dev : Device
  buffer : Nat → UInt8
  moved : List (Nat × Nat)   -- the blocks, by their addresses in `dev->data` and in the buffer
  fault : Bool               -- in one of the dumps

/-- Beyond the end nothing happens, and nothing is dumped. `sector_t` has 64 bits. -/
def sbdCryptTransfer (cfg : Config n κ) (dev : Device) (sector nsect : Nat)
    (buffer : Nat → UInt8) (write : Bool) : Option Transfer :=
  let offset := sector * cfg.logicalBlockSize % 2 ^ 64 % 2 ^ cfg.word
  let nbytes := nsect * cfg.logicalBlockSize % 2 ^ cfg.word
  if (offset + nbytes) % 2 ^ cfg.word > dev.size then some ⟨dev, buffer, [], false⟩
  else if write then
    (encryptLoop cfg offset nbytes dev.data buffer).map fun out =>
      ⟨{ dev with data := out.1 }, buffer, out.2.map Prod.swap, !dumps cfg offset nsect⟩
  else
    (decryptLoop cfg offset nbytes dev.data buffer).map fun out =>
      ⟨dev, out.1, out.2, !dumps cfg offset nsect⟩

/-! ## Requests -/

/-- A piece of a request, with its own buffer. -/
structure Segment where
  sectors : Nat
  buffer : Nat → UInt8

inductive CmdType where
  | fs
  | other
deriving DecidableEq, Repr

structure Request where
  cmdType : CmdType
  pos : Nat
  write : Bool
  segs : List Segment

/-- `blk_rq_cur_sectors`, 0 without a segment. -/
def Request.curSectors (req : Request) : Nat := (req.segs.head?.map Segment.sectors).getD 0

/-- What is at `bio_data`; without a segment that is `NULL`. -/
def Request.curBuffer (req : Request) : Nat → UInt8 :=
  (req.segs.head?.map Segment.buffer).getD fun _ => 0

/-- What `__blk_end_request_cur` makes of a request. -/
def Request.endCur (req : Request) : Request :=
  { req with pos := req.pos + req.curSectors, segs := req.segs.tail }

/-- A segment as its request hands it to the driver, or gets it back. -/
structure Access where
  pos : Nat
  sectors : Nat
  write : Bool
  buffer : Nat → UInt8

/-- What the block layer is told: the current segment is done, with its buffer
and an error code, or the whole request is. -/
inductive Completion where
  | cur (acc : Access) (error : Int)
  | all (req : Request) (error : Int)

/-- The segment completed by `__blk_end_request_cur(req, 0)`, if there is one. -/
def Request.completed (req : Request) (buffer : Nat → UInt8) : List Completion :=
  match req.segs with
  | [] => []
  | seg :: _ => [.cur ⟨req.pos, seg.sectors, req.write, buffer⟩ 0]

structure Run where
  dev : Device
  queue : List Request
  log : List Completion
  fault : Bool

/-- `while (req != NULL)`. A request that is not one of the file system's is
ended, and looked at again. A fault is the end of it, with the segment not
completed. -/
def requestLoop (cfg : Config n κ) : Nat → Option Request → Run → Option Run
  | 0, _, _ => none
  | _ + 1, none, r => some r
  | fuel + 1, some req, r =>
      if req.cmdType ≠ .fs then
        requestLoop cfg fuel (some req) { r with log := r.log ++ [.all req (-5)] }
      else
        match sbdCryptTransfer cfg r.dev req.pos req.curSectors req.curBuffer req.write with
        | none => none
        | some t =>
            if t.fault then some ⟨t.dev, r.queue, r.log, true⟩
            else
              let log := r.log ++ req.completed t.buffer
              if req.endCur.segs ≠ [] then
                requestLoop cfg fuel (some req.endCur) ⟨t.dev, r.queue, log, r.fault⟩
              else requestLoop cfg fuel r.queue.head? ⟨t.dev, r.queue.tail, log, r.fault⟩

/-- `sbd_crypt_request`, which fetches the first request. -/
def sbdCryptRequest (cfg : Config n κ) (fuel : Nat) (dev : Device) (queue : List Request) :
    Option Run :=
  requestLoop cfg fuel queue.head? ⟨dev, queue.tail, [], false⟩

end OsProjects.BlockDevice
