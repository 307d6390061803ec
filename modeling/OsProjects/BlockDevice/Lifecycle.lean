import OsProjects.Framework.Machine
import OsProjects.BlockDevice.Driver

/-!
# Loading and unloading the block device

`sbd_crypt_init` and `sbd_crypt_exit`, call by call, with runs of
`sbd_crypt_request` in between. Each call that acquires something may fail; the
label says how. From `add_disk` until `blk_cleanup_queue` returns, the block layer
may start a run whenever it likes. The queue lock, under which it does, is not
used, so that any number of runs may overlap.

`crypto_free_cipher` is the first call of `sbd_crypt_exit`, and the requests stop
with the last.

- `transfer_data_valid` — `Device.data` is never released under a transfer.
- `safe_iff` — nor is the cipher, exactly if the device is quiet from
  `crypto_free_cipher` on.
-/

namespace OsProjects.BlockDevice.Lifecycle

open Framework

/-! ## The module -/

/-- What `sbd_crypt_init` acquires. -/
inductive Resource where
  | data
  | queue
  | major
  | cipher
  | disk
deriving DecidableEq, Repr

/-- What an acquiring call returns: what was asked for, `NULL` (for
`register_blkdev` a negative number), or an `ERR_PTR`. -/
inductive Outcome where
  | good
  | null
  | err
deriving DecidableEq, Repr

/-- A pointer of the module. A stale one points at something released. -/
inductive Ptr where
  | null
  | valid
  | err
  | stale
deriving DecidableEq, Repr

/-- The next call of `sbd_crypt_init`, or the label it has jumped to. -/
inductive InitPc where
  | vmalloc
  | initQueue
  | registerBlkdev
  | allocCipher
  | setkey
  | allocDisk
  | addDisk
  | outUnregister
  | out
deriving DecidableEq, Repr

/-- The next call of `sbd_crypt_exit`; `draining` is inside `blk_cleanup_queue`. -/
inductive ExitPc where
  | freeCipher
  | delGendisk
  | putDisk
  | unregisterBlkdev
  | cleanupQueue
  | draining
deriving DecidableEq, Repr

inductive Phase where
  | unloaded
  | init (pc : InitPc)
  | loaded
  | exit (pc : ExitPc)
deriving DecidableEq, Repr

/-- Where a run of `sbd_crypt_request` is: not started or over, before
`blk_fetch_request`, in the branch that rejects the request it holds, or in
`sbd_crypt_transfer` with the current segment of its request. -/
inductive RunPc where
  | idle
  | fetch
  | reject
  | transfer
deriving DecidableEq, Repr

/-- `held` counts what has been acquired and not given back. `result` is what
`sbd_crypt_init` has last returned. -/
structure State (R : Type) where
  phase : Phase
  data : Ptr
  cipher : Ptr
  held : Resource → Nat
  result : Int
  run : R → RunPc

variable {R : Type}

def State.goto (s : State R) (phase : Phase) : State R := { s with phase := phase }

def State.acquire (s : State R) (res : Resource) : State R :=
  { s with held := Function.update s.held res (s.held res + 1) }

def State.release (s : State R) (res : Resource) : State R :=
  { s with held := Function.update s.held res (s.held res - 1) }

section SetRun

variable [DecidableEq R]

def State.setRun (s : State R) (r : R) (pc : RunPc) : State R :=
  { s with run := Function.update s.run r pc }

@[simp] theorem State.setRun_self (s : State R) (r : R) (pc : RunPc) :
    (s.setRun r pc).run r = pc := by
  simp only [State.setRun, Function.update_self]

theorem State.setRun_of_ne {r t : R} (h : t ≠ r) (s : State R) (pc : RunPc) :
    (s.setRun r pc).run t = s.run t := by
  simp only [State.setRun, Function.update_of_ne h]

end SetRun

/-- The module makes its next call; or run `r` starts, is handed a request or
none by `blk_fetch_request`, ends the request it rejects, or is told by
`__blk_end_request_cur` whether there is more of its request. -/
inductive Label (R : Type) where
  | module (o : Outcome)
  | start (r : R)
  | fetch (r : R) (req : Option CmdType)
  | endAll (r : R)
  | endCur (r : R) (more : Bool)
deriving DecidableEq, Repr

/-- From `add_disk` to the end of `blk_cleanup_queue`. -/
def Phase.live : Phase → Bool
  | .unloaded | .init _ => false
  | .loaded | .exit _ => true

/-- A call that returns a pointer or a number, with the way on if it is usable
and if not. Only `crypto_alloc_cipher` returns an `ERR_PTR`. -/
def acquiring (s : State R) (res : Resource) (ok failed : Phase) : Outcome → Option (State R)
  | .good => some ((s.acquire res).goto ok)
  | .null => some (s.goto failed)
  | .err => none

/-- `sbd_crypt_init`, one call. `return` leaves its value in `result`; after an
error the module is not loaded. -/
def initStep (s : State R) : InitPc → Outcome → Option (State R)
  | .vmalloc, .good => some { (s.acquire .data).goto (.init .initQueue) with data := .valid }
  | .vmalloc, .null => some { s.goto .unloaded with data := .null, result := -12 }
  | .vmalloc, .err => none
  | .initQueue, o => acquiring s .queue (.init .registerBlkdev) (.init .out) o
  | .registerBlkdev, o => acquiring s .major (.init .allocCipher) (.init .out) o
  -- only NULL is tested for
  | .allocCipher, .err => some { s.goto (.init .setkey) with cipher := .err }
  | .allocCipher, .null => some { s.goto (.init .out) with cipher := .null }
  | .allocCipher, .good => some { (s.acquire .cipher).goto (.init .setkey) with cipher := .valid }
  | .setkey, _ => some (s.goto (.init .allocDisk))
  | .allocDisk, o => acquiring s .disk (.init .addDisk) (.init .outUnregister) o
  | .addDisk, _ => some { s.goto .loaded with result := 0 }
  | .outUnregister, _ => some ((s.release .major).goto (.init .out))
  | .out, _ => some { (s.release .data).goto .unloaded with data := .stale, result := -12 }

/-- `sbd_crypt_exit`, one call. `blk_cleanup_queue` returns when no run is left. -/
def exitStep [Fintype R] (s : State R) : ExitPc → Option (State R)
  | .freeCipher => some { (s.release .cipher).goto (.exit .delGendisk) with cipher := .stale }
  | .delGendisk => some (s.goto (.exit .putDisk))
  | .putDisk => some ((s.release .disk).goto (.exit .unregisterBlkdev))
  | .unregisterBlkdev => some ((s.release .major).goto (.exit .cleanupQueue))
  | .cleanupQueue => some (s.goto (.exit .draining))
  | .draining => if ∀ r, s.run r = .idle then some ((s.release .queue).goto .unloaded) else none

/-- A module that is loaded anew starts with its globals cleared. -/
def moduleStep [Fintype R] (s : State R) (o : Outcome) : Option (State R) :=
  match s.phase with
  | .unloaded => some { s.goto (.init .vmalloc) with data := .null, cipher := .null }
  | .init pc => initStep s pc o
  | .loaded => some (s.goto (.exit .freeCipher))
  | .exit pc => exitStep s pc

/-- Where a run goes with what `blk_fetch_request` returns. A request that is not
one of the file system's is ended and looked at again, so that `reject` is never
left. -/
def afterFetch : Option CmdType → RunPc
  | none => .idle
  | some .fs => .transfer
  | some .other => .reject

def next [DecidableEq R] [Fintype R] (s : State R) : Label R → Option (State R)
  | .module o => moduleStep s o
  | .start r => if s.phase.live = true ∧ s.run r = .idle then some (s.setRun r .fetch) else none
  | .fetch r req => if s.run r = .fetch then some (s.setRun r (afterFetch req)) else none
  | .endAll r => if s.run r = .reject then some s else none
  | .endCur r more =>
      if s.run r = .transfer then some (s.setRun r (if more then .transfer else .fetch)) else none

/-- Not loaded, and no run left. -/
def Unloaded (s : State R) : Prop := s.phase = .unloaded ∧ ∀ r, s.run r = .idle

def machine (R : Type) [DecidableEq R] [Fintype R] : Machine (State R) (Label R) := ⟨Unloaded, next⟩

/-! ## What holds in every state -/

variable {s s' : State R} {r : R} {o : Outcome}

/-- `sbd_crypt_exit` has made its first call. -/
def Phase.cipherFreed : Phase → Bool
  | .exit .freeCipher => false
  | .exit _ => true
  | _ => false

/-- Runs there are only while the device is live, and then `Device.data` is there,
and the cipher until `sbd_crypt_exit` has freed it. -/
inductive Ok (s : State R) : Prop where
  | unloaded : s.phase = .unloaded → (∀ r, s.run r = .idle) → Ok s
  | init {pc : InitPc} : s.phase = .init pc → (∀ r, s.run r = .idle) → s.cipher ≠ .stale →
      (pc ≠ .vmalloc → s.data = .valid) → Ok s
  | live : s.phase.live = true → s.data = .valid →
      (s.cipher = .stale ↔ s.phase.cipherFreed = true) → Ok s

theorem Ok.idle (h : Ok s) (hlive : s.phase.live = false) (r : R) : s.run r = .idle := by
  cases h with
  | unloaded _ hidle => exact hidle r
  | init _ hidle _ _ => exact hidle r
  | live h _ _ => rw [h] at hlive; cases hlive

/-- A run that goes on finds the device live. -/
theorem Ok.live_of_run (h : Ok s) (hr : s.run r ≠ .idle) :
    s.phase.live = true ∧ s.data = .valid ∧ (s.cipher = .stale ↔ s.phase.cipherFreed = true) := by
  cases h with
  | unloaded _ hidle => exact absurd (hidle r) hr
  | init _ hidle _ _ => exact absurd (hidle r) hr
  | live hlive hdata hcipher => exact ⟨hlive, hdata, hcipher⟩

/-- The two ways on from an acquiring call, while nothing runs. -/
theorem ok_acquiring {res : Resource} {pc pc' : InitPc} (hidle : ∀ r, s.run r = .idle)
    (hcipher : s.cipher ≠ .stale) (hdata : s.data = .valid)
    (hn : acquiring s res (.init pc) (.init pc') o = some s') :
    Ok s' ∧ ∀ r, s'.run r = .idle := by
  cases o with
  | good => cases hn; exact ⟨.init rfl hidle hcipher fun _ => hdata, hidle⟩
  | null => cases hn; exact ⟨.init rfl hidle hcipher fun _ => hdata, hidle⟩
  | err => cases hn

/-- **`sbd_crypt_init`** gets to `add_disk` with the array and with a cipher that
has not been freed. -/
theorem ok_initStep {pc : InitPc} (hidle : ∀ r, s.run r = .idle) (hcipher : s.cipher ≠ .stale)
    (hdata : pc ≠ .vmalloc → s.data = .valid) (hn : initStep s pc o = some s') :
    Ok s' ∧ ∀ r, s'.run r = .idle := by
  cases pc with
  | vmalloc =>
      cases o with
      | good => cases hn; exact ⟨.init rfl hidle hcipher fun _ => rfl, hidle⟩
      | null => cases hn; exact ⟨.unloaded rfl hidle, hidle⟩
      | err => cases hn
  | initQueue => exact ok_acquiring hidle hcipher (hdata (by decide)) hn
  | registerBlkdev => exact ok_acquiring hidle hcipher (hdata (by decide)) hn
  | allocCipher =>
      have hvalid := hdata (by decide)
      cases o with
      | good => cases hn; exact ⟨.init rfl hidle (by simp) fun _ => hvalid, hidle⟩
      | null => cases hn; exact ⟨.init rfl hidle (by simp) fun _ => hvalid, hidle⟩
      | err => cases hn; exact ⟨.init rfl hidle (by simp) fun _ => hvalid, hidle⟩
  | setkey =>
      cases hn
      exact ⟨.init rfl hidle hcipher fun _ => hdata (by decide), hidle⟩
  | allocDisk => exact ok_acquiring hidle hcipher (hdata (by decide)) hn
  | addDisk =>
      cases hn
      refine ⟨.live rfl (hdata (by decide)) ⟨fun h => absurd h hcipher, fun h => ?_⟩, hidle⟩
      cases h
  | outUnregister =>
      cases hn
      exact ⟨.init rfl hidle hcipher fun _ => hdata (by decide), hidle⟩
  | out => cases hn; exact ⟨.unloaded rfl hidle, hidle⟩

variable [Fintype R]

/-- **`sbd_crypt_exit`**: the cipher is gone after its first call, the array never. -/
theorem ok_exitStep {pc : ExitPc} (hphase : s.phase = .exit pc) (hdata : s.data = .valid)
    (hcipher : s.cipher = .stale ↔ s.phase.cipherFreed = true) (hn : exitStep s pc = some s') :
    Ok s' := by
  rw [hphase] at hcipher
  cases pc with
  | freeCipher => cases hn; exact .live rfl hdata ⟨fun _ => rfl, fun _ => rfl⟩
  | delGendisk => cases hn; exact .live rfl hdata hcipher
  | putDisk => cases hn; exact .live rfl hdata hcipher
  | unregisterBlkdev => cases hn; exact .live rfl hdata hcipher
  | cleanupQueue => cases hn; exact .live rfl hdata hcipher
  | draining =>
      rw [exitStep, Option.ite_none_right_eq_some, Option.some.injEq] at hn
      obtain ⟨hidle, rfl⟩ := hn
      exact .unloaded rfl hidle

theorem ok_moduleStep (h : Ok s) (hn : moduleStep s o = some s') : Ok s' := by
  rw [moduleStep] at hn
  cases h with
  | unloaded hp hidle =>
      rw [hp] at hn
      cases hn
      exact .init rfl hidle (by simp) fun h => absurd rfl h
  | init hp hidle hcipher hdata =>
      rw [hp] at hn
      exact (ok_initStep hidle hcipher hdata hn).1
  | live hlive hdata hcipher =>
      cases hp : s.phase with
      | unloaded => rw [hp] at hlive; cases hlive
      | init pc => rw [hp] at hlive; cases hlive
      | loaded =>
          rw [hp] at hn hcipher
          cases hn
          exact .live rfl hdata hcipher
      | exit pc =>
          rw [hp] at hn
          exact ok_exitStep hp hdata hcipher hn

variable [DecidableEq R]

omit [Fintype R] in
/-- Steps of a run leave the rest alone. -/
theorem Ok.setRun (h : Ok s) (hlive : s.phase.live = true) (pc : RunPc) : Ok (s.setRun r pc) := by
  cases h with
  | unloaded hp _ => rw [hp] at hlive; cases hlive
  | init hp _ _ _ => rw [hp] at hlive; cases hlive
  | live _ hdata hcipher => exact .live hlive hdata hcipher

/-- What one step does, with what it needs. -/
inductive StepOf (s : State R) : Label R → State R → Prop where
  | module {o : Outcome} {s' : State R} : moduleStep s o = some s' → StepOf s (.module o) s'
  | start {r : R} : s.phase.live = true → StepOf s (.start r) (s.setRun r .fetch)
  | fetch {r : R} {req : Option CmdType} : s.run r = .fetch →
      StepOf s (.fetch r req) (s.setRun r (afterFetch req))
  | endAll {r : R} : StepOf s (.endAll r) s
  | endCur {r : R} {more : Bool} : s.run r = .transfer →
      StepOf s (.endCur r more) (s.setRun r (if more then .transfer else .fetch))

theorem next_cases {a : Label R} (hn : next s a = some s') : StepOf s a s' := by
  cases a with
  | module o => exact .module hn
  | start r =>
      rw [next, Option.ite_none_right_eq_some, Option.some.injEq] at hn
      obtain ⟨⟨hlive, -⟩, rfl⟩ := hn
      exact .start hlive
  | fetch r req =>
      rw [next, Option.ite_none_right_eq_some, Option.some.injEq] at hn
      obtain ⟨hr, rfl⟩ := hn
      exact .fetch hr
  | endAll r =>
      rw [next, Option.ite_none_right_eq_some, Option.some.injEq] at hn
      obtain ⟨-, rfl⟩ := hn
      exact .endAll
  | endCur r more =>
      rw [next, Option.ite_none_right_eq_some, Option.some.injEq] at hn
      obtain ⟨hr, rfl⟩ := hn
      exact .endCur hr

theorem ok_step {a : Label R} (h : Ok s) (hn : next s a = some s') : Ok s' := by
  cases next_cases hn with
  | module hm => exact ok_moduleStep h hm
  | start hlive => exact h.setRun hlive _
  | fetch hr => exact h.setRun (h.live_of_run (by rw [hr]; decide)).1 _
  | endAll => exact h
  | endCur hr => exact h.setRun (h.live_of_run (by rw [hr]; decide)).1 _

theorem ok_reach (h : (machine R).Reach s) : Ok s := by
  induction h with
  | init h0 => exact .unloaded h0.1 h0.2
  | step _ _ hn ih => exact ok_step ih hn

/-- **The array outlives the transfers.** Only a failed `sbd_crypt_init` gives it
back, and that is before `add_disk`. -/
theorem transfer_data_valid (h : (machine R).Reach s) (hr : s.run r = .transfer) :
    s.data = .valid :=
  ((ok_reach h).live_of_run (by rw [hr]; decide)).2.1

/-! ## The cipher under the transfers -/

/-- No run is in `sbd_crypt_transfer` with the cipher freed or the array released. -/
def Safe (s : State R) : Prop :=
  ∀ r, s.run r = .transfer → s.cipher ≠ .stale ∧ s.data ≠ .stale

instance (s : State R) : Decidable (Safe s) := inferInstanceAs (Decidable (∀ _, _ → _))

/-- When `crypto_free_cipher` is called no run is in a transfer, and from then on no
run is handed a request of the file system. -/
def Quiet (s : State R) : Label R → Prop
  | .module _ => s.phase = .exit .freeCipher → ∀ r, s.run r ≠ .transfer
  | .fetch _ (some .fs) => s.phase.cipherFreed = false
  | _ => True

instance (s : State R) : (a : Label R) → Decidable (Quiet s a)
  | .module _ => inferInstanceAs (Decidable (_ → _))
  | .fetch _ (some .fs) => inferInstanceAs (Decidable (_ = _))
  | .fetch _ (some .other) | .fetch _ none | .start _ | .endAll _ | .endCur _ _ => .isTrue trivial

omit [Fintype R] [DecidableEq R] in
theorem safe_of_idle (h : ∀ r, s.run r = .idle) : Safe s := by
  intro r hr
  rw [h r] at hr
  cases hr

omit [Fintype R] in
/-- A run that does not enter a transfer changes nothing. -/
theorem Safe.setRun {pc : RunPc} (h : Safe s)
    (hpc : pc = .transfer → s.cipher ≠ .stale ∧ s.data ≠ .stale) : Safe (s.setRun r pc) := by
  intro t ht
  by_cases htr : t = r
  · subst htr
    rw [State.setRun_self] at ht
    exact hpc ht
  · rw [State.setRun_of_ne htr] at ht
    exact h t ht

omit [DecidableEq R] in
/-- `crypto_free_cipher` is safe exactly if no transfer is going on; the calls after
it are if it was. -/
theorem safe_exitStep {pc : ExitPc} (hs : Safe s) (hn : exitStep s pc = some s') :
    Safe s' ↔ (pc = .freeCipher → ∀ r, s.run r ≠ .transfer) := by
  cases pc with
  | freeCipher =>
      cases hn
      constructor
      · intro h _ r hr
        exact (h r hr).1 rfl
      · intro h r hr
        exact absurd hr (h rfl r)
  | delGendisk => cases hn; exact iff_of_true hs (by simp)
  | putDisk => cases hn; exact iff_of_true hs (by simp)
  | unregisterBlkdev => cases hn; exact iff_of_true hs (by simp)
  | cleanupQueue => cases hn; exact iff_of_true hs (by simp)
  | draining =>
      rw [exitStep, Option.ite_none_right_eq_some, Option.some.injEq] at hn
      obtain ⟨hidle, rfl⟩ := hn
      exact iff_of_true (safe_of_idle hidle) (by simp)

omit [DecidableEq R] in
theorem safe_moduleStep (hok : Ok s) (hs : Safe s) (hn : moduleStep s o = some s') :
    Safe s' ↔ Quiet s (.module o) := by
  rw [moduleStep] at hn
  cases hp : s.phase with
  | unloaded =>
      have hidle := hok.idle (by rw [hp]; rfl)
      rw [hp] at hn
      cases hn
      exact iff_of_true (safe_of_idle hidle) (by simp [Quiet, hp])
  | init pc =>
      rw [hp] at hn
      cases hok with
      | unloaded hp' _ => rw [hp'] at hp; cases hp
      | init hp' hidle hcipher hdata =>
          obtain rfl := Phase.init.inj (hp'.symm.trans hp)
          exact iff_of_true (safe_of_idle (ok_initStep hidle hcipher hdata hn).2)
            (by simp [Quiet, hp])
      | live hlive _ _ => rw [hp] at hlive; cases hlive
  | loaded =>
      rw [hp] at hn
      cases hn
      exact iff_of_true hs (by simp [Quiet, hp])
  | exit pc =>
      rw [hp] at hn
      rw [safe_exitStep hs hn, Quiet, hp, Phase.exit.injEq]

/-- One step is safe exactly if it is quiet. -/
theorem safe_step {a : Label R} (hok : Ok s) (hs : Safe s) (hn : next s a = some s') :
    Safe s' ↔ Quiet s a := by
  cases next_cases hn with
  | module hm => exact safe_moduleStep hok hs hm
  | start _ => exact iff_of_true (hs.setRun (by simp)) trivial
  | @fetch r req hr =>
      obtain ⟨-, hdata, hcipher⟩ := hok.live_of_run (r := r) (by rw [hr]; decide)
      have hfreed : s.phase.cipherFreed = false ↔ s.cipher ≠ .stale := by
        rw [Ne, hcipher, Bool.not_eq_true]
      cases req with
      | none => exact iff_of_true (hs.setRun (by simp [afterFetch])) trivial
      | some cmd =>
          cases cmd with
          | other => exact iff_of_true (hs.setRun (by simp [afterFetch])) trivial
          | fs =>
              rw [Quiet, hfreed]
              constructor
              · intro h
                exact (h r (s.setRun_self r .transfer)).1
              · intro h
                exact hs.setRun fun _ => ⟨h, by rw [hdata]; decide⟩
  | endAll => exact iff_of_true hs trivial
  | endCur hr => exact iff_of_true (hs.setRun fun _ => hs _ hr) trivial

/-- **A quiet device unloads safely, and only a quiet one.** Over any loads and
unloads, with any runs in between, no transfer meets a freed cipher or a released
array exactly if every step is quiet. -/
theorem safe_iff {as : List (Label R)} (h0 : Unloaded s)
    (h : (machine R).replay s as = some s') :
    (machine R).Along Safe s as ↔ (machine R).StepsMeet Quiet s as :=
  Machine.along_iff_stepsMeet (fun _ _ _ hok hn => ok_step hok hn)
    (fun _ _ _ hok hs hn => safe_step hok hs hn) (.unloaded h0.1 h0.2)
    (safe_of_idle h0.2) h

/-- The machine before the module is loaded. -/
def fresh (R : Type) : State R := ⟨.unloaded, .null, .null, fun _ => 0, 0, fun _ => .idle⟩

/-- `insmod`, every call of which succeeds, and then `as`. -/
def loadThen (as : List (Label R)) : List (Label R) := List.replicate 8 (.module .good) ++ as

/-- One request of two segments, and an unload when it is done. -/
def quietRun : List (Label Unit) :=
  loadThen [.start (), .fetch () (some .fs), .endCur () true, .endCur () false, .fetch () none,
    .module .good, .module .good, .module .good, .module .good, .module .good, .module .good,
    .module .good]

theorem safe_iff_quietRun :
    Unloaded (fresh Unit) ∧ ((machine Unit).replay (fresh Unit) quietRun).isSome ∧
    (machine Unit).Along Safe (fresh Unit) quietRun := by
  have h0 : Unloaded (fresh Unit) := ⟨rfl, fun _ => rfl⟩
  have hrun : ((machine Unit).replay (fresh Unit) quietRun).isSome := by decide +kernel
  obtain ⟨s', hs'⟩ := Option.isSome_iff_exists.mp hrun
  exact ⟨h0, hrun, (safe_iff h0 hs').mpr (by decide +kernel)⟩

/-- A request that is pending when the module is unloaded, and that `del_gendisk`
lets through. -/
def pendingRun : List (Label Unit) :=
  loadThen [.module .good, .module .good, .start (), .fetch () (some .fs)]

/-- **A transfer with a freed cipher.** -/
theorem transfer_after_free : ∃ s, (machine Unit).replay (fresh Unit) pendingRun = some s ∧
    s.phase = .exit .delGendisk ∧ s.run () = .transfer ∧ s.cipher = .stale ∧ ¬ Safe s := by
  have hrun : ((machine Unit).replay (fresh Unit) pendingRun).map
      (fun s => (s.phase, s.run (), s.cipher)) =
      some (.exit .delGendisk, .transfer, .stale) := by decide +kernel
  obtain ⟨s, hs, hend⟩ := Option.map_eq_some_iff.mp hrun
  simp only [Prod.mk.injEq] at hend
  obtain ⟨hphase, htransfer, hcipher⟩ := hend
  exact ⟨s, hs, hphase, htransfer, hcipher, fun h => (h () htransfer).1 hcipher⟩

end OsProjects.BlockDevice.Lifecycle
