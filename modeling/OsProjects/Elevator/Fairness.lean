import OsProjects.Elevator.Sweep
import OsProjects.Elevator.Termination

/-!
# Waiting for one's turn

`dispatch_req` takes the first request, so how long a request waits depends on what
`add_req` puts before it. A request whose sector is above all those up to `r` is put behind
`r`, whatever is read at the head of the list (`addReq_behind`); if all requests that come
in are like that, `r` is dispatched after those before it (`served_in_turn`). A request that
is not above the first one is put second, though, unless the last one is below it: two
requests for one sector can keep the rest of the queue waiting for ever (`rest_starves`).
-/

namespace OsProjects.Elevator

open Framework

variable {Req : Type} {pos : Req → Nat} {l : Links (ListHead Req)}

/-! ## Where a request comes in -/

section Place

variable {q : Nat} {stray : Nat → Nat} {fuel n : Nat} {x : ListHead Req}

/-- The comparison that ends the search is with the node after the one it returns. -/
theorem forwardLoop_stops {prev : ListHead Req}
    (hx : forwardLoop pos l q stray fuel n prev (l.next prev) = some x) :
    ∃ i, q ≤ blkRqPos pos (stray i) (l.next x) := by
  induction fuel generalizing n prev with
  | zero => cases hx
  | succ fuel ih =>
      rw [forwardLoop] at hx
      split at hx
      · exact ih hx
      · rename_i hstop
        obtain rfl := Option.some.inj hx
        exact ⟨n, not_lt.mp hstop⟩

/-- Above the first request, the search goes forwards and ends before one that is not
below, or before the head. -/
theorem findPlace_stops {f : Req} {rest : List Req} {req : Req} (h : Holds l (f :: rest))
    (hf : pos f < pos req) (hx : findPlace pos l req stray fuel = some x) :
    ∃ i, pos req ≤ blkRqPos pos (stray i) (l.next x) := by
  have hfirst : l.next .queue = .queuelist f := (Ring.forward h).first
  unfold findPlace at hx
  simp only [hfirst, blkRqPos] at hx
  rw [if_pos hf] at hx
  -- `prev` is not the node before `next` until the first comparison is over
  cases fuel with
  | zero => cases hx
  | succ fuel =>
      rw [forwardLoop, if_pos (by exact hf)] at hx
      exact forwardLoop_stops hx

theorem onQueue_split {xs : List Req} (hx : OnQueue xs x) :
    ∃ as bs, xs = as ++ bs ∧ x = (as.map .queuelist).getLastD .queue := by
  rcases List.mem_cons.mp hx with rfl | hmem
  · exact ⟨[], xs, rfl, rfl⟩
  · obtain ⟨r, hr, rfl⟩ := List.mem_map.mp hmem
    obtain ⟨as, bs, rfl⟩ := List.append_of_mem hr
    refine ⟨as ++ [r], bs, by simp, ?_⟩
    rw [List.map_append, List.map_singleton, List.getLastD_concat]

theorem Holds.next_at {as bs : List Req} (h : Holds l (as ++ bs)) :
    l.next ((as.map .queuelist).getLastD .queue) = (bs.map .queuelist).headD .queue := by
  unfold Holds at h
  rw [List.map_append] at h
  exact Ring.next_at h

/-- The search stops at once, at the last request, with `next` still the first one. -/
theorem findPlace_second {w req : Req} {rest : List Req} (h : Holds l (w :: rest))
    (hw : pos req ≤ pos w) (hlast : ∀ z ∈ rest.getLast?, pos req ≤ pos z) (hne : rest ≠ []) :
    findPlace pos l req stray (fuel + 1) = some (.queuelist w) := by
  obtain ⟨rest, z, rfl⟩ := (List.eq_nil_or_concat' rest).resolve_left hne
  have hfirst : l.next .queue = .queuelist w := (Ring.forward h).first
  have hprev : l.prev .queue = .queuelist z := by
    have := h.backward.first
    simpa using this
  have hz : pos req ≤ pos z := hlast z (by simp)
  unfold findPlace
  simp only [hfirst, hprev, blkRqPos]
  rw [if_neg (not_lt.mpr hw), backwardLoop, if_neg (not_lt.mpr (by exact hz))]

end Place

/-- Another request is taken out. -/
theorem remove_other {q r : Req} {as bs ys zs : List Req} (hne : q ≠ r)
    (h : ys ++ r :: zs = as ++ q :: bs) :
    ∃ ys' zs', as ++ bs = ys' ++ r :: zs' ∧ ys'.Sublist ys := by
  rcases List.append_eq_append_iff.mp h with ⟨cs, rfl, hcs⟩ | ⟨cs, rfl, hcs⟩
  · -- behind `r`
    cases cs with
    | nil => exact absurd (List.cons.inj hcs).1.symm hne
    | cons c cs =>
        obtain ⟨rfl, -⟩ := List.cons.inj hcs
        exact ⟨ys, cs ++ bs, by simp, List.Sublist.refl ys⟩
  · cases cs with
    | nil => exact absurd (List.cons.inj hcs).1 hne
    | cons c cs =>
        obtain ⟨rfl, rfl⟩ := List.cons.inj hcs
        refine ⟨as ++ cs, zs, by simp, ?_⟩
        exact List.Sublist.append (List.Sublist.refl as) (List.sublist_cons_self q cs)

variable [DecidableEq Req] {req r : Req} {stray : Nat → Nat} {fuel : Nat}

/-- **No overtaking from above.** -/
theorem addReq_behind {ys zs : List Req} (h : Holds l (ys ++ zs)) (hne : ys ≠ [])
    (hnew : req ∉ ys ++ zs) (habove : ∀ y ∈ ys, pos y < pos req)
    {out : Links (ListHead Req) × List Nat} (hout : addReq pos l req stray fuel = some out) :
    ∃ as bs, zs = as ++ bs ∧ Holds out.1 (ys ++ (as ++ req :: bs)) := by
  obtain ⟨hnil, -⟩ | ⟨-, x, hx, hlinks⟩ := addReq_cases h hout
  · exact absurd (List.append_eq_nil_iff.mp hnil).1 hne
  obtain ⟨f, ys, rfl⟩ := List.exists_cons_of_ne_nil hne
  obtain ⟨i, hstop⟩ := findPlace_stops h (habove f List.mem_cons_self) hx
  obtain ⟨as, bs, hsplit, rfl⟩ := onQueue_split (findPlace_onQueue h hx)
  have hnext : l.next ((as.map .queuelist).getLastD .queue) =
      (bs.map .queuelist).headD .queue := Holds.next_at (hsplit ▸ h)
  rw [hnext] at hstop
  rcases List.append_eq_append_iff.mp hsplit with ⟨cs, rfl, rfl⟩ | ⟨cs, hys, rfl⟩
  · refine ⟨cs, bs, rfl, ?_⟩
    rw [hlinks, ← List.append_assoc]
    exact Holds.add _ bs (hsplit ▸ h) (hsplit ▸ hnew)
  · cases cs with
    | nil =>
        refine ⟨[], zs, rfl, ?_⟩
        rw [hlinks, List.nil_append]
        rw [List.append_nil] at hys
        rw [← hys]
        exact Holds.add _ zs h hnew
    | cons c cs =>
        -- it would have stopped before one that is below
        have hc : c ∈ f :: ys := by
          rw [hys]
          simp
        exact absurd hstop (not_le.mpr (habove c hc))

/-! ## A request's turn -/

def Label.isDispatch : Label Req → Bool
  | .dispatch => true
  | _ => false

/-- A request that comes in is above sector `m`, and `r` is not merged. -/
def Behind (pos : Req → Nat) (m : Nat) (r : Req) : Label Req → Prop
  | .add req _ _ => m < pos req
  | .merge q => q ≠ r
  | .dispatch | .relink _ _ _ => True

instance (m : Nat) (r : Req) : (a : Label Req) → Decidable (Behind pos m r a)
  | .add _ _ _ => inferInstanceAs (Decidable (_ < _))
  | .merge _ => inferInstanceAs (Decidable (_ ≠ _))
  | .dispatch | .relink _ _ _ => .isTrue trivial

section Turn

variable {m : Nat} {s s' : State Req} {a : Label Req} {ys zs : List Req}

theorem QueueOk.agrees {xs : List Req} (hok : QueueOk s) (h : Holds s.links xs) :
    Agrees s xs := by
  obtain ⟨xs', hagrees⟩ := hok.queue
  rw [h.unique hagrees.1]
  exact hagrees

/-- **The step lemma.** `r` is dispatched, or those before it have got fewer with each
dispatch and not more in any case. -/
theorem turn_step (hok : QueueOk s) (hq : Agrees s (ys ++ r :: zs))
    (hlow : ∀ y ∈ ys ++ [r], pos y ≤ m) (ha : Behind pos m r a)
    (hn : next pos s a = some s') :
    a.isDispatch = true ∧ ys = [] ∧ s'.log = .dispatched r :: s.log ∨
    ∃ ys' zs', Agrees s' (ys' ++ r :: zs') ∧ ys'.Sublist ys ∧
      ys'.length + (if a.isDispatch then 1 else 0) ≤ ys.length := by
  have hok' := hok.next hn
  cases a with
  | add req stray fuel =>
      simp only [next] at hn
      split at hn
      · cases hn
      · rename_i hfree
        obtain ⟨out, hout, rfl⟩ := Option.map_eq_some_iff.mp hn
        have hsplit : ys ++ r :: zs = (ys ++ [r]) ++ zs := by simp
        have hnew : req ∉ ys ++ r :: zs := fun hmem => hfree ((hq.2 req).mp hmem)
        have hbelow : ∀ y ∈ ys ++ [r], pos y < pos req := fun y hy =>
          Nat.lt_of_le_of_lt (hlow y hy) ha
        obtain ⟨as, bs, -, hh⟩ :=
          addReq_behind (hsplit ▸ hq.1) (by simp) (hsplit ▸ hnew) hbelow hout
        refine Or.inr ⟨ys, as ++ req :: bs, hok'.agrees ?_, List.Sublist.refl ys, Nat.le_refl _⟩
        rw [List.append_assoc] at hh
        exact hh
  | merge q =>
      obtain ⟨xs', hh', hstep⟩ := next_cases hq hn
      generalize hx : ys ++ r :: zs = xs, s.log = log, s'.log = log' at hstep
      cases hstep with
      | @merge _ as bs =>
          obtain ⟨ys', zs', hsplit, hsub⟩ := remove_other ha hx
          rw [hsplit] at hh'
          exact Or.inr ⟨ys', zs', hok'.agrees hh', hsub, hsub.length_le⟩
  | dispatch =>
      obtain ⟨xs', hh', hstep⟩ := next_cases hq hn
      generalize hx : ys ++ r :: zs = xs, s.log = log, s'.log = log' at hstep ⊢
      cases hstep with
      | idle => simp at hx
      | dispatch =>
          cases ys with
          | nil =>
              obtain ⟨rfl, -⟩ := List.cons.inj hx
              exact Or.inl ⟨rfl, rfl, rfl⟩
          | cons y ys =>
              obtain ⟨-, rfl⟩ := List.cons.inj hx
              exact Or.inr ⟨ys, zs, hok'.agrees hh', List.sublist_cons_self y ys, Nat.le_refl _⟩
  | relink q nx pv =>
      obtain ⟨xs', hh', hstep⟩ := next_cases hq hn
      generalize hx : ys ++ r :: zs = xs, s.log = log, s'.log = log' at hstep
      cases hstep with
      | relink =>
          subst hx
          exact Or.inr ⟨ys, zs, hok'.agrees hh', List.Sublist.refl ys, Nat.le_refl _⟩

theorem log_step (hok : QueueOk s) (hn : next pos s a = some s') :
    ∃ new, s'.log = new ++ s.log := by
  obtain ⟨xs, hagrees⟩ := hok.queue
  obtain ⟨xs', -, hstep⟩ := next_cases hagrees hn
  generalize s.log = log, s'.log = log' at hstep
  cases hstep with
  | @add req | @merge req | @dispatch req => exact ⟨[_], rfl⟩
  | idle | relink => exact ⟨[], rfl⟩

theorem log_replay {as : List (Label Req)} (hok : QueueOk s)
    (hrun : (machine pos).replay s as = some s') : ∃ new, s'.log = new ++ s.log := by
  induction as generalizing s with
  | nil =>
      obtain rfl := Option.some.inj hrun
      exact ⟨[], rfl⟩
  | cons a as ih =>
      obtain ⟨t, hn, hrest⟩ := Machine.replay_cons hrun
      obtain ⟨new, hnew⟩ := ih (hok.next hn) hrest
      obtain ⟨first, hfirst⟩ := log_step hok hn
      exact ⟨new ++ first, by rw [hnew, hfirst, List.append_assoc]⟩

/-- The run lemma. -/
theorem turn_replay {as : List (Label Req)} (hok : QueueOk s) (hq : Agrees s (ys ++ r :: zs))
    (hlow : ∀ y ∈ ys ++ [r], pos y ≤ m) (hall : ∀ a ∈ as, Behind pos m r a)
    (hrun : (machine pos).replay s as = some s')
    (hcount : ys.length < as.countP Label.isDispatch) :
    ∃ new, s'.log = new ++ s.log ∧ Event.dispatched r ∈ new := by
  induction as generalizing s ys zs with
  | nil => cases hcount
  | cons a as ih =>
      obtain ⟨t, hn, hrest⟩ := Machine.replay_cons hrun
      obtain ⟨ha, has⟩ := List.forall_mem_cons.mp hall
      rcases turn_step hok hq hlow ha hn with ⟨-, -, hlog⟩ | ⟨ys', zs', hq', hsub, hlen⟩
      · obtain ⟨new, hnew⟩ := log_replay (hok.next hn) hrest
        refine ⟨new ++ [.dispatched r], ?_, by simp⟩
        rw [hnew, hlog]
        simp
      · have hlow' : ∀ y ∈ ys' ++ [r], pos y ≤ m := fun y hy =>
          hlow y ((hsub.append (List.Sublist.refl [r])).subset hy)
        have hcount' : ys'.length < as.countP Label.isDispatch := by
          rw [List.countP_cons] at hcount
          omega
        obtain ⟨new, hnew, hmem⟩ := ih (hok.next hn) hq' hlow' has hrest hcount'
        obtain ⟨first, hfirst⟩ := log_step hok hn
        refine ⟨new ++ first, ?_, List.mem_append_left _ hmem⟩
        rw [hnew, hfirst, List.append_assoc]

end Turn

/-! ## Requests that come in second -/

section Second

variable {w : Req} {rest : List Req}

theorem addReq_second (stray : Nat → Nat) (h : Holds l (w :: rest))
    (hnew : req ∉ w :: rest) (hw : pos req ≤ pos w)
    (hlast : ∀ z ∈ rest.getLast?, pos req ≤ pos z) (hne : rest ≠ []) :
    ∃ out, addReq pos l req stray (rest.length + 3) = some out ∧
      Holds out.1 (w :: req :: rest) := by
  have hplace : findPlace pos l req stray (rest.length + 3) = some (.queuelist w) :=
    findPlace_second h hw hlast hne
  obtain ⟨out, hout⟩ := addReq_returns h hnew (by simp) hplace (Nat.lt_succ_self _)
  refine ⟨out, hout, ?_⟩
  obtain ⟨hnil, -⟩ | ⟨-, x, hx, hlinks⟩ := addReq_cases h hout
  · cases hnil
  · obtain rfl := Option.some.inj (hplace.symm.trans hx)
    rw [hlinks]
    exact Holds.add [w] rest h hnew

/-- Two requests for one sector: each comes in again while the other one is first, which is
then dispatched. -/
def flood (stray : Nat → Nat) (fuel : Nat) : Req → Req → Nat → List (Label Req)
  | _, _, 0 => []
  | w, w', n + 1 => .add w' stray fuel :: .dispatch :: flood stray fuel w' w n

/-- One round of it. -/
theorem flood_round (stray : Nat → Nat) {s : State Req} {w' : Req} (hq : Agrees s (w :: rest))
    (hsame : pos w' = pos w) (hfree : pending s.log w' = false)
    (hlast : ∀ z ∈ rest.getLast?, pos w ≤ pos z) (hne : rest ≠ []) :
    ∃ t t', next pos s (.add w' stray (rest.length + 3)) = some t ∧
      next pos t .dispatch = some t' ∧ Holds t'.links (w' :: rest) ∧
      t'.log = .dispatched w :: .added w' :: s.log := by
  have hnew : w' ∉ w :: rest := by
    intro hmem
    rw [(hq.2 w').mp hmem] at hfree
    cases hfree
  obtain ⟨out, hout, hh⟩ := addReq_second stray hq.1 hnew hsame.le
    (fun z hz => hsame.le.trans (hlast z hz)) hne
  obtain ⟨l', hdisp, hh'⟩ := dispatchReq_spec hh
  refine ⟨⟨out.1, .added w' :: s.log⟩, ⟨l', .dispatched w :: .added w' :: s.log⟩, ?_, ?_, hh', rfl⟩
  · rw [next, if_neg (by rw [hfree]; exact Bool.false_ne_true), hout]
    rfl
  · simp only [next, hdisp]
    rfl

theorem flood_replay {n : Nat} {s : State Req} {w' : Req} (hok : QueueOk s)
    (hq : Agrees s (w :: rest)) (hsame : pos w' = pos w) (hfree : pending s.log w' = false)
    (hlast : ∀ z ∈ rest.getLast?, pos w ≤ pos z) (hne : rest ≠ []) :
    ∃ s', (machine pos).replay s (flood stray (rest.length + 3) w w' n) = some s' ∧
      Agrees s' ((if n % 2 = 0 then w else w') :: rest) := by
  induction n generalizing s w w' with
  | zero => exact ⟨s, rfl, hq⟩
  | succ n ih =>
      obtain ⟨t, t', hadd, hdisp, hh, hlog⟩ := flood_round stray hq hsame hfree hlast hne
      have hok' := (hok.next hadd).next hdisp
      have hfree' : pending t'.log w = false := by
        rw [hlog, pending, if_pos rfl]
      obtain ⟨s', hrun, hq'⟩ := ih hok' (hok'.agrees hh) hsame.symm hfree'
        (fun z hz => hsame.le.trans (hlast z hz))
      refine ⟨s', ?_, ?_⟩
      · rw [flood, Machine.replay_of_next hadd, Machine.replay_of_next hdisp]
        exact hrun
      · have hparity : (if (n + 1) % 2 = 0 then w else w') = if n % 2 = 0 then w' else w := by
          rcases Nat.mod_two_eq_zero_or_one n with h | h
          · rw [if_neg (by omega), if_pos h]
          · rw [if_pos (by omega), if_neg (by omega)]
        rw [hparity]
        exact hq'

end Second

/-! ## Draining -/

theorem dispatch_replay {xs : List Req} {s : State Req} (hok : QueueOk s) (hq : Agrees s xs) :
    ∃ s', (machine pos).replay s (List.replicate xs.length .dispatch) = some s' ∧ QueueOk s' ∧
      Agrees s' [] ∧ s'.log = (xs.map .dispatched).reverse ++ s.log := by
  induction xs generalizing s with
  | nil => exact ⟨s, rfl, hok, hq, rfl⟩
  | cons x xs ih =>
      obtain ⟨l', hdisp, hh⟩ := dispatchReq_spec hq.1
      have hn : next pos s .dispatch = some ⟨l', .dispatched x :: s.log⟩ := by
        simp only [next, hdisp]
        rfl
      have hok' := hok.next hn
      obtain ⟨s', hrun, hend, hempty, hlog⟩ := ih hok' (hok'.agrees hh)
      refine ⟨s', ?_, hend, hempty, ?_⟩
      · rw [List.length_cons, List.replicate_succ, Machine.replay_of_next hn]
        exact hrun
      · rw [hlog]
        simp

/-! ## Results -/

theorem reach_agrees {s : State Req} (hs : (machine pos).Reach s) : Agrees s s.queue := by
  obtain ⟨xs, hagrees⟩ := (reach_queueOk hs).queue
  rw [hagrees.queue_eq]
  exact hagrees

/-- The requests are for sectors 5 and 10, two numbers for each sector. -/
def twoRequests : List (Label Nat) := [.add 10 (fun _ => 100) 5, .add 20 (fun _ => 100) 5]

theorem twoRequests_reached : ∃ s, (machine fun r : Nat => r / 2).Reach s ∧
    (machine fun r : Nat => r / 2).replay ⟨initListHead ⟨id, id⟩ .queue, []⟩ twoRequests =
      some s ∧ s.queue = [10, 20] ∧ s.log = [.added 20, .added 10] := by
  have hrun : ((machine fun r : Nat => r / 2).replay ⟨initListHead ⟨id, id⟩ .queue, []⟩
      twoRequests).map (fun s => (s.queue, s.log)) =
        some ([10, 20], [.added 20, .added 10]) := by
    decide +kernel
  obtain ⟨s, hs, hout⟩ := Option.map_eq_some_iff.mp hrun
  obtain ⟨hq, hlog⟩ := Prod.mk.inj hout
  exact ⟨s, Machine.Reach.replay (.init ⟨_, rfl⟩) hs, hs, hq, hlog⟩

/-- **In turn.** While only requests above sector `m` come in, a request `r` with nothing
above `m` up to it waits for those before it alone: of more calls of `dispatch_req` than
there are requests before it, one hands over `r`. Whatever is read at the head of the list,
and whatever else is merged. -/
theorem served_in_turn {m : Nat} {s s' : State Req} {ys zs : List Req} {as : List (Label Req)}
    (hs : (machine pos).Reach s) (hq : s.queue = ys ++ r :: zs)
    (hlow : ∀ y ∈ ys ++ [r], pos y ≤ m) (hall : ∀ a ∈ as, Behind pos m r a)
    (hrun : (machine pos).replay s as = some s')
    (hcount : ys.length < as.countP Label.isDispatch) :
    ∃ new, s'.log = new ++ s.log ∧ Event.dispatched r ∈ new := by
  have hagrees := reach_agrees hs
  rw [hq] at hagrees
  exact turn_replay (reach_queueOk hs) hagrees hlow hall hrun hcount

/-- The second request goes second, with others coming in above it. -/
theorem served_in_turn_second : ∃ s s', (machine fun r : Nat => r / 2).Reach s ∧
    (machine fun r : Nat => r / 2).replay s [.add 30 (fun _ => 100) 5, .dispatch,
      .add 40 (fun _ => 100) 5, .merge 30, .dispatch] = some s' ∧
    ∃ new, s'.log = new ++ s.log ∧ Event.dispatched 20 ∈ new := by
  obtain ⟨s, hs, hboot, hq, -⟩ := twoRequests_reached
  have hrun : (((machine fun r : Nat => r / 2).replay ⟨initListHead ⟨id, id⟩ .queue, []⟩
      twoRequests).bind fun s => (machine fun r : Nat => r / 2).replay s
        [.add 30 (fun _ => 100) 5, .dispatch, .add 40 (fun _ => 100) 5, .merge 30,
          .dispatch]).isSome = true := by
    decide +kernel
  rw [hboot, Option.bind_some] at hrun
  obtain ⟨s', hs'⟩ := Option.isSome_iff_exists.mp hrun
  have hq' : s.queue = [10] ++ 20 :: [] := hq
  exact ⟨s, s', hs, hs', served_in_turn (m := 10) hs hq' (by decide) (by decide) hs' (by decide)⟩

/-- **Starvation.** If the last request is not below the first one, another request for the
first one's sector comes in second, and so does the first one again once it is dispatched.
However many requests are dispatched that way, the rest of the queue stays where it is. -/
theorem rest_starves {s : State Req} {w w' : Req} {rest : List Req}
    (hs : (machine pos).Reach s) (hq : s.queue = w :: rest) (hne : rest ≠ [])
    (hlast : ∀ z ∈ rest.getLast?, pos w ≤ pos z) (hsame : pos w' = pos w)
    (hfree : pending s.log w' = false) (stray : Nat → Nat) (n : Nat) :
    ∃ s', (machine pos).replay s (flood stray (rest.length + 3) w w' n) = some s' ∧
      s'.queue = (if n % 2 = 0 then w else w') :: rest := by
  have hagrees := reach_agrees hs
  rw [hq] at hagrees
  obtain ⟨s', hrun, hq'⟩ :=
    flood_replay (n := n) (reach_queueOk hs) hagrees hsame hfree hlast hne
  exact ⟨s', hrun, hq'.queue_eq⟩

theorem rest_starves_second : ∃ s, (machine fun r : Nat => r / 2).Reach s ∧ s.queue = [10, 20] ∧
    ∃ s', (machine fun r : Nat => r / 2).replay s (flood (fun _ => 0) 4 10 11 1000) = some s' ∧
      s'.queue = [10, 20] := by
  obtain ⟨s, hs, -, hq, hlog⟩ := twoRequests_reached
  refine ⟨s, hs, hq, ?_⟩
  have hfree : pending s.log 11 = false := by
    rw [hlog]
    decide
  have hsame : (fun r : Nat => r / 2) 11 = (fun r : Nat => r / 2) 10 := rfl
  exact rest_starves hs hq (by decide) (by decide) hsame hfree (fun _ => 0) 1000

/-- **Draining.** As many calls of `dispatch_req` as there are requests hand over all of
them, in the order of the queue and once each; the next call returns 0, and `exit_sstf` finds
the queue empty. -/
theorem queue_drains {s : State Req} (hs : (machine pos).Reach s) :
    ∃ s', (machine pos).replay s (List.replicate s.queue.length .dispatch) = some s' ∧
      s'.log = (s.queue.map .dispatched).reverse ++ s.log ∧
      (dispatchReq s'.links).2 = (none, 0) ∧ exitBug s'.links = false := by
  obtain ⟨s', hrun, -, hempty, hlog⟩ := dispatch_replay (reach_queueOk hs) (reach_agrees hs)
  obtain ⟨l', hdisp, -⟩ := dispatchReq_spec hempty.1
  refine ⟨s', hrun, hlog, by rw [hdisp]; rfl, ?_⟩
  rw [exitBug, hempty.1.empty_iff.mpr rfl]
  rfl

theorem queue_drains_twoRequests : ∃ s, (machine fun r : Nat => r / 2).Reach s ∧
    s.queue = [10, 20] ∧
    ∃ s', (machine fun r : Nat => r / 2).replay s (List.replicate s.queue.length .dispatch) =
        some s' ∧
      s'.log = (s.queue.map .dispatched).reverse ++ s.log ∧
      (dispatchReq s'.links).2 = (none, 0) ∧ exitBug s'.links = false := by
  obtain ⟨s, hs, -, hq, -⟩ := twoRequests_reached
  exact ⟨s, hs, hq, queue_drains hs⟩

end OsProjects.Elevator
