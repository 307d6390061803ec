import OsProjects.BlockDevice.Lifecycle

/-!
# What loading and unloading leave behind

`sbd_crypt_init` gives back only the array on its way `out`, and the major number
where it has jumped to `out_unregister`: a failure behind `blk_init_queue` leaves
the queue behind, and what else has been acquired by then. An `ERR_PTR` from
`crypto_alloc_cipher` is taken for a cipher. `sbd_crypt_exit` gives back everything
but the array.

`tidy_iff`: loads and unloads leave nothing behind exactly as long as none of these
happens.
-/

namespace OsProjects.BlockDevice.Lifecycle

open Framework

variable {R : Type}

/-! ## Watching the resources -/

/-- `before` is what was held when `sbd_crypt_init` was last called. -/
structure Watched (R : Type) where
  state : State R
  before : Resource → Nat

section Watched

variable [DecidableEq R] [Fintype R]

def Watched.next (w : Watched R) (a : Label R) : Option (Watched R) :=
  (Lifecycle.next w.state a).map fun s =>
    ⟨s, if w.state.phase = .unloaded then w.state.held else w.before⟩

/-- Nothing was ever loaded. -/
def Blank (w : Watched R) : Prop :=
  Unloaded w.state ∧ (∀ res, w.state.held res = 0) ∧ w.state.result = 0

end Watched

def watched (R : Type) [DecidableEq R] [Fintype R] : Machine (Watched R) (Label R) :=
  ⟨Blank, Watched.next⟩

/-- The calls that come after `crypto_alloc_cipher` and rely on it, until the cipher is
given back. -/
def Phase.usesCipher : Phase → Bool
  | .init .setkey | .init .allocDisk | .init .addDisk | .loaded | .exit .freeCipher => true
  | _ => false

/-- A load that fails leaves what was held before it, and an unload leaves nothing;
in between the cipher is one. -/
structure Tidy (w : Watched R) : Prop where
  failed : w.state.phase = .unloaded → w.state.result ≠ 0 → w.state.held = w.before
  exited : w.state.phase = .unloaded → w.state.result = 0 → ∀ res, w.state.held res = 0
  cipher : w.state.phase.usesCipher = true → w.state.cipher = .valid

/-- The calls on whose failure something is left behind. -/
def Phase.leaky : Phase → Bool
  | .init .registerBlkdev | .init .allocCipher | .init .allocDisk => true
  | _ => false

/-- These calls succeed when they are made, and `sbd_crypt_exit` does not get to its
end. -/
def LeavesNothing (w : Watched R) : Label R → Prop
  | .module o => (w.state.phase.leaky = true → o = .good) ∧ w.state.phase ≠ .exit .draining
  | _ => True

instance (w : Watched R) : (a : Label R) → Decidable (LeavesNothing w a)
  | .module _ => inferInstanceAs (Decidable ((_ → _) ∧ _))
  | .start _ | .fetch _ _ | .endAll _ | .endCur _ _ => .isTrue trivial

/-! ## What is held where -/

/-- What has been acquired when the calls so far have succeeded; at `out` it is what
`blk_init_queue` has failed after. -/
def owned : Phase → List Resource
  | .unloaded | .init .vmalloc | .init .outUnregister => []
  | .init .initQueue | .init .out => [.data]
  | .init .registerBlkdev => [.queue, .data]
  | .init .allocCipher => [.major, .queue, .data]
  | .init .setkey | .init .allocDisk => [.cipher, .major, .queue, .data]
  | .init .addDisk | .loaded | .exit .freeCipher => [.disk, .cipher, .major, .queue, .data]
  | .exit .delGendisk | .exit .putDisk => [.disk, .major, .queue, .data]
  | .exit .unregisterBlkdev => [.major, .queue, .data]
  | .exit .cleanupQueue | .exit .draining => [.queue, .data]

/-- The module is on the way on which nothing is left behind. -/
structure Owns (s : State R) : Prop where
  held : s.held = fun res => (owned s.phase).count res
  cipher : s.phase.usesCipher = true → s.cipher = .valid
  result : s.phase.live = true → s.result = 0
  path : s.phase ≠ .init .outUnregister

variable {s s' : State R} {o : Outcome} {res : Resource} {l : List Resource}

theorem acquire_held (h : s.held = fun r => l.count r) :
    (s.acquire res).held = fun r => (res :: l).count r := by
  funext r
  by_cases hr : r = res
  · subst hr
    simp [State.acquire, h]
  · simp [State.acquire, h, hr, Ne.symm hr]

theorem release_held (h : s.held = fun r => l.count r) :
    (s.release res).held = fun r => (l.erase res).count r := by
  funext r
  by_cases hr : r = res
  · subst hr
    simp [State.release, h]
  · simp [State.release, h, hr, List.count_erase_of_ne hr]

theorem owns_initStep {pc : InitPc} (h : Owns s) (hp : s.phase = .init pc)
    (hok : (Phase.init pc).leaky = true → o = .good)
    (hn : initStep s pc o = some s') : Owns s' := by
  have hheld := h.held
  have hcipher := h.cipher
  rw [hp] at hheld hcipher
  cases pc with
  | vmalloc =>
      cases o with
      | good => cases hn; exact ⟨acquire_held hheld, nofun, nofun, nofun⟩
      | null => cases hn; exact ⟨hheld, nofun, nofun, nofun⟩
      | err => cases hn
  | initQueue =>
      cases o with
      | good => cases hn; exact ⟨acquire_held hheld, nofun, nofun, nofun⟩
      | null => cases hn; exact ⟨hheld, nofun, nofun, nofun⟩
      | err => cases hn
  | registerBlkdev =>
      obtain rfl := hok rfl
      cases hn
      exact ⟨acquire_held hheld, nofun, nofun, nofun⟩
  | allocCipher =>
      obtain rfl := hok rfl
      cases hn
      exact ⟨acquire_held hheld, fun _ => rfl, nofun, nofun⟩
  | setkey => cases hn; exact ⟨hheld, hcipher, nofun, nofun⟩
  | allocDisk =>
      obtain rfl := hok rfl
      cases hn
      exact ⟨acquire_held hheld, hcipher, nofun, nofun⟩
  | addDisk => cases hn; exact ⟨hheld, hcipher, fun _ => rfl, nofun⟩
  | outUnregister => exact absurd hp h.path
  | out => cases hn; exact ⟨release_held hheld, nofun, nofun, nofun⟩

theorem owns_exitStep [Fintype R] {pc : ExitPc} (h : Owns s) (hp : s.phase = .exit pc)
    (hpc : pc ≠ .draining) (hn : exitStep s pc = some s') : Owns s' := by
  have hheld := h.held
  have hresult : s.result = 0 := h.result (by rw [hp]; rfl)
  rw [hp] at hheld
  cases pc with
  | freeCipher => cases hn; exact ⟨release_held hheld, nofun, fun _ => hresult, nofun⟩
  | delGendisk => cases hn; exact ⟨hheld, nofun, fun _ => hresult, nofun⟩
  | putDisk => cases hn; exact ⟨release_held hheld, nofun, fun _ => hresult, nofun⟩
  | unregisterBlkdev => cases hn; exact ⟨release_held hheld, nofun, fun _ => hresult, nofun⟩
  | cleanupQueue => cases hn; exact ⟨hheld, nofun, fun _ => hresult, nofun⟩
  | draining => exact absurd rfl hpc

theorem owns_moduleStep [Fintype R] (h : Owns s) (hok : s.phase.leaky = true → o = .good)
    (hpc : s.phase ≠ .exit .draining) (hn : moduleStep s o = some s') : Owns s' := by
  rw [moduleStep] at hn
  cases hp : s.phase with
  | unloaded =>
      have hheld := h.held
      rw [hp] at hn hheld
      cases hn
      refine ⟨hheld, fun hstart => ?_, fun hstart => ?_, fun hstart => ?_⟩ <;> cases hstart
  | init pc =>
      rw [hp] at hn hok
      exact owns_initStep h hp hok hn
  | loaded =>
      have hheld := h.held
      have hcipher := h.cipher (by rw [hp]; rfl)
      have hresult := h.result (by rw [hp]; rfl)
      rw [hp] at hn hheld
      cases hn
      refine ⟨hheld, fun _ => hcipher, fun _ => hresult, fun hexit => ?_⟩
      cases hexit
  | exit pc =>
      rw [hp] at hn
      refine owns_exitStep h hp (fun heq => hpc ?_) hn
      rw [hp, heq]

/-! ## Runs -/

variable [DecidableEq R] [Fintype R] {w w' : Watched R} {a : Label R}

omit [Fintype R] in
theorem Owns.setRun (h : Owns s) (r : R) (pc : RunPc) : Owns (s.setRun r pc) :=
  ⟨h.held, h.cipher, h.result, h.path⟩

theorem owns_step (h : Owns w.state) (hok : LeavesNothing w a)
    (hn : Lifecycle.next w.state a = some s') : Owns s' := by
  cases next_cases hn with
  | module hm => exact owns_moduleStep h hok.1 hok.2 hm
  | start _ => exact h.setRun _ _
  | fetch _ => exact h.setRun _ _
  | endAll => exact h
  | endCur _ => exact h.setRun _ _

/-- Nothing has been left behind so far. -/
structure Clean (w : Watched R) : Prop where
  owns : Owns w.state
  before : w.state.phase = .unloaded ∧ w.state.result = 0 ∨ w.before = fun _ => 0

omit [DecidableEq R] [Fintype R] in
theorem Owns.held_unloaded (h : Owns s) (hp : s.phase = .unloaded) : s.held = fun _ => 0 := by
  have hheld := h.held
  rw [hp] at hheld
  exact hheld

omit [DecidableEq R] [Fintype R] in
theorem Clean.tidy (h : Clean w) : Tidy w where
  failed hp hresult := by
    rcases h.before with ⟨-, hzero⟩ | hbefore
    · exact absurd hzero hresult
    · rw [h.owns.held_unloaded hp, hbefore]
  exited hp _ res := by rw [h.owns.held_unloaded hp]
  cipher := h.owns.cipher

/-- The step is one of the module, and what was held before a load is remembered. -/
theorem watched_next (hn : (watched R).next w a = some w') :
    Lifecycle.next w.state a = some w'.state ∧
      w'.before = if w.state.phase = .unloaded then w.state.held else w.before := by
  obtain ⟨s, hs, rfl⟩ := Option.map_eq_some_iff.mp hn
  exact ⟨hs, rfl⟩

theorem Clean.before_next (h : Clean w) (hn : (watched R).next w a = some w') :
    w'.before = fun _ => 0 := by
  rw [(watched_next hn).2]
  split
  · rename_i hp
    exact h.owns.held_unloaded hp
  · rename_i hp
    exact h.before.resolve_left fun hblank => hp hblank.1

theorem Clean.next (h : Clean w) (hok : LeavesNothing w a)
    (hn : (watched R).next w a = some w') : Clean w' :=
  ⟨owns_step h.owns hok (watched_next hn).1, .inr (h.before_next hn)⟩

/-- On the way out with the queue, which is not given back there. -/
structure Doomed (w : Watched R) : Prop where
  phase : w.state.phase = .init .out ∨ w.state.phase = .init .outUnregister
  queue : 0 < w.state.held .queue
  before : w.before = fun _ => 0

omit [Fintype R] [DecidableEq R] in
/-- A load that has failed, with the queue still held. -/
theorem not_tidy_of_queue (hp : w.state.phase = .unloaded) (hresult : w.state.result ≠ 0)
    (hqueue : 0 < w.state.held .queue) (hbefore : w.before = fun _ => 0) : ¬ Tidy w := by
  intro h
  rw [h.failed hp hresult, hbefore] at hqueue
  exact absurd hqueue (Nat.lt_irrefl 0)

theorem Doomed.next (h : Doomed w) (hn : (watched R).next w a = some w') :
    ¬ Tidy w' ∨ Doomed w' := by
  obtain ⟨hs, hbefore⟩ := watched_next hn
  have hinit : w.state.phase ≠ .unloaded := by
    rcases h.phase with hp | hp <;> rw [hp] <;> nofun
  rw [if_neg hinit, h.before] at hbefore
  obtain ⟨s', before⟩ := w'
  cases next_cases hs with
  | module hm =>
      rw [moduleStep] at hm
      rcases h.phase with hp | hp
      · rw [hp] at hm
        cases hm
        exact .inl (not_tidy_of_queue rfl (by simp) h.queue hbefore)
      · rw [hp] at hm
        cases hm
        exact .inr ⟨.inl rfl, h.queue, hbefore⟩
  | start _ => exact .inr ⟨h.phase, h.queue, hbefore⟩
  | fetch _ => exact .inr ⟨h.phase, h.queue, hbefore⟩
  | endAll => exact .inr ⟨h.phase, h.queue, hbefore⟩
  | endCur _ => exact .inr ⟨h.phase, h.queue, hbefore⟩

omit [Fintype R] [DecidableEq R] in
/-- **A leaky call that does not succeed**: the queue is held by then, and the way is
out; or the cipher is none, and the way is on. -/
theorem leaky_initStep {pc : InitPc} (h : Owns s) (hp : s.phase = .init pc)
    (hleaky : (Phase.init pc).leaky = true) (ho : o ≠ .good) (hn : initStep s pc o = some s') :
    ((s'.phase = .init .out ∨ s'.phase = .init .outUnregister) ∧ 0 < s'.held .queue) ∨
      (s'.phase.usesCipher = true ∧ s'.cipher ≠ .valid) := by
  have hheld := h.held
  rw [hp] at hheld
  have hqueue : 0 < s.held .queue := by
    rw [hheld]
    cases pc <;> first | exact Nat.one_pos | cases hleaky
  cases pc with
  | registerBlkdev =>
      cases o with
      | good => exact absurd rfl ho
      | null => cases hn; exact .inl ⟨.inl rfl, hqueue⟩
      | err => cases hn
  | allocCipher =>
      cases o with
      | good => exact absurd rfl ho
      | null => cases hn; exact .inl ⟨.inl rfl, hqueue⟩
      | err => cases hn; exact .inr ⟨rfl, nofun⟩
  | allocDisk =>
      cases o with
      | good => exact absurd rfl ho
      | null => cases hn; exact .inl ⟨.inr rfl, hqueue⟩
      | err => cases hn
  | vmalloc | initQueue | setkey | addDisk | outUnregister | out => cases hleaky

omit [DecidableEq R] in
/-- **The end of `sbd_crypt_exit`**: the array is still held. -/
theorem not_tidy_of_draining (h : Owns w.state) (hp : w.state.phase = .exit .draining)
    (hn : moduleStep w.state o = some w'.state) : ¬ Tidy w' := by
  intro htidy
  have hheld := h.held
  have hresult := h.result (by rw [hp]; rfl)
  rw [hp] at hheld
  have hexit : exitStep w.state .draining = some w'.state := by
    rw [moduleStep, hp] at hn
    exact hn
  rw [exitStep, Option.ite_none_right_eq_some, Option.some.injEq] at hexit
  have hstate := hexit.2
  have hnone := htidy.exited (by rw [← hstate]; rfl) (by rw [← hstate]; exact hresult) .data
  have hdata : w'.state.held .data = 1 := by
    rw [← hstate]
    show (w.state.release .queue).held .data = 1
    rw [release_held hheld]
    rfl
  omega

theorem Clean.fail (h : Clean w) (hok : ¬ LeavesNothing w a)
    (hn : (watched R).next w a = some w') : ¬ Tidy w' ∨ Doomed w' := by
  have hs := (watched_next hn).1
  have hbefore := h.before_next hn
  cases a with
  | module o =>
      have hm : moduleStep w.state o = some w'.state := hs
      by_cases hdrain : w.state.phase = .exit .draining
      · exact .inl (not_tidy_of_draining h.owns hdrain hm)
      · have hfailed : w.state.phase.leaky = true ∧ o ≠ .good := by
          by_contra hcon
          refine hok ⟨fun hleaky => ?_, hdrain⟩
          by_contra ho
          exact hcon ⟨hleaky, ho⟩
        obtain ⟨hleaky, ho⟩ := hfailed
        obtain ⟨pc, hp⟩ : ∃ pc, w.state.phase = .init pc := by
          cases hp : w.state.phase with
          | init pc => exact ⟨pc, rfl⟩
          | unloaded | loaded | exit _ => rw [hp] at hleaky; cases hleaky
        rw [hp] at hleaky
        rw [moduleStep, hp] at hm
        rcases leaky_initStep h.owns hp hleaky ho hm with ⟨hout, hqueue⟩ | ⟨huses, hcipher⟩
        · exact .inr ⟨hout, hqueue, hbefore⟩
        · exact .inl fun htidy => hcipher (htidy.cipher huses)
  | start r => exact absurd trivial hok
  | fetch r req => exact absurd trivial hok
  | endAll r => exact absurd trivial hok
  | endCur r more => exact absurd trivial hok

omit [DecidableEq R] [Fintype R] in
theorem Blank.clean (h : Blank w) : Clean w := by
  obtain ⟨⟨hp, -⟩, hheld, hresult⟩ := h
  refine ⟨⟨?_, ?_, ?_, ?_⟩, .inl ⟨hp, hresult⟩⟩
  · rw [hp]
    exact funext hheld
  · rw [hp]
    nofun
  · rw [hp]
    nofun
  · rw [hp]
    nofun

/-- **When loading and unloading leave nothing behind.** In any sequence of loads and
unloads from nothing held, with any failures and any runs in between, every failed
load restores what was held, no load goes on with an `ERR_PTR`, and every unload
gives back everything: if, and once no load is under way only if, the leaky calls
succeed and `sbd_crypt_exit` is not run to its end. -/
theorem tidy_iff {as : List (Label R)} (h0 : Blank w) (h : (watched R).replay w as = some w') :
    ((watched R).StepsMeet LeavesNothing w as → (watched R).Along Tidy w as) ∧
    ((∀ pc, w'.state.phase ≠ .init pc) → (watched R).Along Tidy w as →
      (watched R).StepsMeet LeavesNothing w as) := by
  apply Machine.along_iff_stepsMeet_late (P := Clean) (D := Doomed) _ _ _ _ _ h0.clean h
  · exact fun w hclean => hclean.tidy
  · exact fun w a w' hclean hok hn => hclean.next hok hn
  · exact fun w a w' hclean hok hn => hclean.fail hok hn
  · exact fun w a w' hdoomed hn => hdoomed.next hn
  · intro w hdoomed hend
    rcases hdoomed.phase with hp | hp
    · exact hend _ hp
    · exact hend _ hp

/-- `vmalloc` fails, then `blk_init_queue`, and then the module is loaded and used. -/
def thirdTime : List (Label Unit) :=
  [.module .good, .module .null, .module .good, .module .good, .module .null, .module .good] ++
    loadThen [.start (), .fetch () (some .fs), .endCur () false]

theorem tidy_thirdTime :
    Blank (⟨fresh Unit, fun _ => 0⟩ : Watched Unit) ∧
    ((watched Unit).replay ⟨fresh Unit, fun _ => 0⟩ thirdTime).isSome ∧
    (watched Unit).Along Tidy ⟨fresh Unit, fun _ => 0⟩ thirdTime := by
  have h0 : Blank (⟨fresh Unit, fun _ => 0⟩ : Watched Unit) :=
    ⟨⟨rfl, fun _ => rfl⟩, fun _ => rfl, rfl⟩
  have hrun : ((watched Unit).replay ⟨fresh Unit, fun _ => 0⟩ thirdTime).isSome := by
    decide +kernel
  obtain ⟨w', hw'⟩ := Option.isSome_iff_exists.mp hrun
  exact ⟨h0, hrun, (tidy_iff h0 hw').1 (by decide +kernel)⟩

def loadUnload : List (Label Unit) := loadThen (List.replicate 7 (.module .good))

/-- **The array outlives the module**, loaded and unloaded once without any failure. -/
theorem array_left_behind : ∃ w', (watched Unit).replay ⟨fresh Unit, fun _ => 0⟩ loadUnload =
      some w' ∧ w'.state.phase = .unloaded ∧ w'.state.result = 0 ∧ w'.state.held .data = 1 ∧
      ¬ Tidy w' := by
  have hrun : ((watched Unit).replay ⟨fresh Unit, fun _ => 0⟩ loadUnload).map
      (fun w => (w.state.phase, w.state.result, w.state.held .data)) =
      some (.unloaded, 0, 1) := by decide +kernel
  obtain ⟨w', hw', hend⟩ := Option.map_eq_some_iff.mp hrun
  simp only [Prod.mk.injEq] at hend
  obtain ⟨hphase, hresult, hdata⟩ := hend
  refine ⟨w', hw', hphase, hresult, hdata, fun htidy => ?_⟩
  have hnone := htidy.exited hphase hresult .data
  omega

end OsProjects.BlockDevice.Lifecycle
