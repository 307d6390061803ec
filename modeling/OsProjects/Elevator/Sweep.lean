import OsProjects.Elevator.Rings
import OsProjects.Framework.Sweep

/-!
# The queue as one sweep of the disk arm

What `add_req` does to the sector positions on the queue when a comparison with
the head of the list stops the search (`Placed`): a request above the first one
goes before the first that is not below it; any other is searched for from the
end, and goes right behind the first request of the queue, or behind the request
*at* which the search from the end passed the last smaller one.

`sweep_iff` — the positions turn at most once exactly in the runs in which every
request comes in at one of a few places (`InSweep`).
-/

namespace OsProjects.Elevator

open Framework

/-! ## Positions -/

/-- A request at `q` is put into the positions of the queue. -/
inductive Placed (q : Nat) : List Nat → List Nat → Prop where
  | empty : Placed q [] [q]
  | forward {f : Nat} {pre post : List Nat} : f < q → (∀ x ∈ pre, x < q) →
      (∀ y ∈ post.head?, q ≤ y) → Placed q (f :: (pre ++ post)) (f :: (pre ++ q :: post))
  | front {f : Nat} {rest : List Nat} : q ≤ f → (∀ e ∈ (f :: rest).getLast?, q ≤ e) →
      Placed q (f :: rest) (f :: q :: rest)
  | behind {pre post : List Nat} {p n : Nat} : (∀ f ∈ (pre ++ [p]).head?, q ≤ f) → q ≤ p →
      n < q → (∀ x ∈ post, x < q) →
      Placed q (pre ++ p :: n :: post) (pre ++ p :: n :: q :: post)

/-- A request at `q` is above the first one; or it is not above the last one, and
not below the second one unless all behind the first ascend; or it is above the
last one, but not above the one before that. -/
def InSweep (q : Nat) (qs : List Nat) : Prop :=
  (∀ f ∈ qs.head?, f < q) ∨
  ((∀ e ∈ qs.getLast?, q ≤ e) ∧
    ((∀ g ∈ qs.tail.head?, g ≤ q) ∨ qs.tail.Pairwise (· ≤ ·))) ∨
  ((∀ e ∈ qs.getLast?, e < q) ∧ ∀ p ∈ qs.dropLast.getLast?, q ≤ p)

instance (q : Nat) (qs : List Nat) : Decidable (InSweep q qs) :=
  inferInstanceAs (Decidable (_ ∨ _ ∨ _))

section Exact

variable {q f p n : Nat} {pre post rest : List Nat}

/-- Above the first request it goes up before it goes down again. -/
theorem not_peak_forward (hf : f < q) (hpre : ∀ x ∈ pre, x < q)
    (hpost : ∀ y ∈ post.head?, q ≤ y) (h : ¬ Peak (f :: (pre ++ post))) :
    ¬ Peak (f :: (pre ++ q :: post)) := by
  have hfirst : ∀ {b c : Nat}, [b, c].Sublist post → [f, b, c].Sublist (f :: (pre ++ post)) :=
    fun hsub => (hsub.trans (List.sublist_append_right pre post)).cons_cons f
  rw [← List.cons_append, peak_insert_iff]
  rintro (hold | ⟨b, c, hsub, hqb, hcb⟩ | ⟨a, -, c, hc, -, hcq⟩ | ⟨a, b, hsub, -, hqb⟩)
  · exact h hold
  · exact h ⟨f, b, c, hfirst hsub, hf.trans hqb, hcb⟩
  · cases post with
    | nil => cases hc
    | cons y post =>
        have hy : q ≤ y := hpost y rfl
        rcases List.mem_cons.mp hc with rfl | hc
        · exact absurd hcq (not_lt.mpr hy)
        · refine h ⟨f, y, c, hfirst ?_, hf.trans_le hy, hcq.trans_le hy⟩
          exact (List.singleton_sublist.mpr hc).cons_cons y
  · have hb : b ∈ f :: pre := hsub.subset (by simp)
    rcases List.mem_cons.mp hb with rfl | hb
    · exact absurd hf (not_lt.mpr hqb.le)
    · exact absurd (hpre b hb) (not_lt.mpr hqb.le)

/-- Right behind the first request. -/
theorem not_peak_front (hf : q ≤ f)
    (hok : (∀ g ∈ rest.head?, g ≤ q) ∨ rest.Pairwise (· ≤ ·)) (h : ¬ Peak (f :: rest)) :
    ¬ Peak (f :: q :: rest) := by
  rw [show f :: q :: rest = [f] ++ q :: rest from rfl, peak_insert_iff]
  rintro (hold | ⟨b, c, hsub, hqb, hcb⟩ | ⟨a, ha, c, -, haq, -⟩ | ⟨a, b, hsub, -, -⟩)
  · exact h hold
  · rcases hok with hsecond | hup
    · cases rest with
      | nil => cases hsub
      | cons g rest =>
          have hg : g < b := (hsecond g rfl).trans_lt hqb
          have htail : [b, c].Sublist rest := by
            rcases List.sublist_cons_iff.mp hsub with hsub | ⟨r, hr, -⟩
            · exact hsub
            · exact absurd (List.cons.inj hr).1 hg.ne'
          refine h ⟨g, b, c, ?_, hg, hcb⟩
          exact (htail.cons_cons g).trans (List.sublist_cons_self f _)
    · exact absurd hcb (not_lt.mpr (List.pairwise_iff_forall_sublist.mp hup hsub))
  · obtain rfl := List.mem_singleton.mp ha
    exact absurd haq (not_lt.mpr hf)
  · have := hsub.length_le
    simp at this

/-- Right behind the first request, but below the second, with a descent behind. -/
theorem turns_front (hf : q ≤ f) (hsecond : ¬ ∀ g ∈ rest.head?, g ≤ q)
    (hup : ¬ rest.Pairwise (· ≤ ·)) (h : ¬ Peak (f :: rest)) :
    Peak (f :: q :: rest) ∧ Dip (f :: q :: rest) := by
  rw [List.pairwise_iff_forall_sublist] at hup
  push Not at hsecond hup
  obtain ⟨g, hg, hqg⟩ := hsecond
  obtain ⟨b, c, hsub, hcb⟩ := hup
  cases rest with
  | nil => cases hg
  | cons y rest =>
      obtain rfl : y = g := Option.some.inj hg
      -- a descent from above `q`
      obtain ⟨d, e, hde, hqd, hed⟩ : ∃ d e, [d, e].Sublist (y :: rest) ∧ q < d ∧ e < d := by
        by_cases hqb : q < b
        · exact ⟨b, c, hsub, hqb, hcb⟩
        · have hcy : c < y := hcb.trans_le ((not_lt.mp hqb).trans hqg.le)
          have hc : c ∈ rest := by
            rcases List.mem_cons.mp (hsub.subset (by simp : c ∈ [b, c])) with rfl | hc
            · exact absurd hcy (lt_irrefl c)
            · exact hc
          exact ⟨y, c, (List.singleton_sublist.mpr hc).cons_cons y, hqg, hcy⟩
      have hqf : q < f := by
        rcases hf.lt_or_eq with hqf | rfl
        · exact hqf
        · exact absurd ⟨q, d, e, hde.cons_cons q, hqd, hed⟩ h
      refine ⟨⟨q, d, e, (hde.cons_cons q).trans (List.sublist_cons_self f _), hqd, hed⟩,
        ⟨f, q, y, ?_, hqf, hqg⟩⟩
      exact ((List.singleton_sublist.mpr List.mem_cons_self).cons_cons q).cons_cons f

/-- Behind the last request, when it is the only smaller one. -/
theorem not_peak_behind (hn : n < q) (h : ¬ Peak (pre ++ [p, n])) :
    ¬ Peak (pre ++ [p, n, q]) := by
  rw [show pre ++ [p, n, q] = (pre ++ [p, n]) ++ q :: [] by simp, peak_insert_iff]
  rintro (hold | ⟨b, c, hsub, -, -⟩ | ⟨a, -, c, hc, -, -⟩ | ⟨a, b, hsub, hab, hqb⟩)
  · rw [List.append_nil] at hold
    exact h hold
  · cases hsub
  · cases hc
  · -- `b` is above `n`, so it stands before it
    rw [show pre ++ [p, n] = (pre ++ [p]) ++ [n] by simp] at h hsub
    obtain ⟨l₁, l₂, heq, h₁, h₂⟩ := List.sublist_append_iff.mp hsub
    rcases List.sublist_cons_iff.mp h₂ with hnil | ⟨r, rfl, hr⟩
    · obtain rfl := List.sublist_nil.mp hnil
      rw [List.append_nil] at heq
      subst heq
      refine h ⟨a, b, n, ?_, hab, hn.trans hqb⟩
      exact h₁.append (List.Sublist.refl [n])
    · obtain rfl := List.sublist_nil.mp hr
      have hlast := congrArg List.getLast? heq
      rw [List.getLast?_concat] at hlast
      obtain rfl : b = n := Option.some.inj hlast
      exact absurd hn (not_lt.mpr hqb.le)

theorem turns_behind (hp : q ≤ p) (hn : n < q) (hpost : ∀ x ∈ post, x < q) (hne : post ≠ []) :
    Peak (pre ++ p :: n :: q :: post) ∧ Dip (pre ++ p :: n :: q :: post) := by
  obtain ⟨c, hc⟩ := List.exists_mem_of_ne_nil post hne
  have hsub : ∀ {l : List Nat}, l.Sublist (p :: n :: q :: post) →
      l.Sublist (pre ++ p :: n :: q :: post) := fun h => h.trans (List.sublist_append_right _ _)
  constructor
  · refine ⟨n, q, c, hsub ?_, hn, hpost c hc⟩
    exact (((List.singleton_sublist.mpr hc).cons_cons q).cons_cons n).trans
      (List.sublist_cons_self p _)
  · refine ⟨p, n, q, hsub ?_, hn.trans_le hp, hn⟩
    exact ((List.singleton_sublist.mpr List.mem_cons_self).cons_cons n).cons_cons p

/-- Right behind the first request is none of the places but the second. -/
theorem not_inSweep_front (hf : q ≤ f) (hlast : ∀ e ∈ (f :: rest).getLast?, q ≤ e)
    (hok : ¬ ((∀ g ∈ rest.head?, g ≤ q) ∨ rest.Pairwise (· ≤ ·))) : ¬ InSweep q (f :: rest) := by
  rintro (hup | ⟨-, hin⟩ | ⟨hend, -⟩)
  · exact absurd (hup f rfl) (not_lt.mpr hf)
  · exact hok hin
  · have he := List.getLast?_eq_some_getLast (List.cons_ne_nil f rest)
    exact absurd (hend _ he) (not_lt.mpr (hlast _ he))

/-- Further to the front than behind the last request is none of the places. -/
theorem not_inSweep_behind {e : Nat} (hfirst : ∀ f ∈ (pre ++ [p]).head?, q ≤ f) (hn : n < q)
    (hpost : ∀ x ∈ post ++ [e], x < q) : ¬ InSweep q (pre ++ p :: n :: (post ++ [e])) := by
  have he : e < q := hpost e (by simp)
  rintro (hup | ⟨hend, -⟩ | ⟨-, hbefore⟩)
  · have hhead : (pre ++ p :: n :: (post ++ [e])).head? = (pre ++ [p]).head? := by
      rw [List.head?_append, List.head?_append]
      rfl
    obtain ⟨f, hf⟩ : ∃ f, (pre ++ [p]).head? = some f := by
      cases pre <;> exact ⟨_, rfl⟩
    exact absurd (hup f (hhead.trans hf)) (not_lt.mpr (hfirst f hf))
  · exact absurd (hend e (by simp [List.getLast?_cons])) (not_le.mpr he)
  · -- the last but one is below the request as well
    have hdrop : (pre ++ p :: n :: (post ++ [e])).dropLast = (pre ++ [p]) ++ n :: post := by
      rw [show pre ++ p :: n :: (post ++ [e]) = (pre ++ [p] ++ n :: post) ++ [e] by simp]
      exact List.dropLast_concat
    rw [hdrop, List.getLast?_append_of_ne_nil _ (List.cons_ne_nil n post),
      List.getLast?_eq_some_getLast (List.cons_ne_nil n post)] at hbefore
    have hle := hbefore _ rfl
    rcases List.mem_cons.mp (List.getLast_mem (List.cons_ne_nil n post)) with heq | hmem
    · rw [heq] at hle
      exact absurd hn (not_lt.mpr hle)
    · exact absurd (hpost _ (List.mem_append_left _ hmem)) (not_lt.mpr hle)

/-- **Where a request keeps the sweep.** -/
theorem Placed.oneSweep_iff {qs qs' : List Nat} (hp : Placed q qs qs') (h : ¬ Peak qs) :
    (OneSweep qs' ↔ InSweep q qs) ∧ (InSweep q qs → ¬ Peak qs') := by
  suffices hcases : (InSweep q qs ∧ ¬ Peak qs') ∨ (¬ InSweep q qs ∧ Peak qs' ∧ Dip qs') by
    rcases hcases with ⟨hin, hpeak⟩ | ⟨hout, hturns⟩
    · exact ⟨iff_of_true (oneSweep_of_not_peak hpeak) hin, fun _ => hpeak⟩
    · exact ⟨iff_of_false (fun hone => hone.not_peak_and_dip hturns) hout,
        fun hin => absurd hin hout⟩
  cases hp with
  | empty =>
      left
      refine ⟨.inl (by simp), ?_⟩
      rintro ⟨a, b, c, hsub, -, -⟩
      have := hsub.length_le
      simp at this
  | forward hf hpre hpost =>
      left
      refine ⟨.inl fun g hg => ?_, not_peak_forward hf hpre hpost h⟩
      obtain rfl := Option.some.inj hg
      exact hf
  | @front f rest hf hlast =>
      by_cases hok : (∀ g ∈ rest.head?, g ≤ q) ∨ rest.Pairwise (· ≤ ·)
      · left
        exact ⟨.inr (.inl ⟨hlast, hok⟩), not_peak_front hf hok h⟩
      · right
        obtain ⟨hsecond, hup⟩ := not_or.mp hok
        exact ⟨not_inSweep_front hf hlast hok, turns_front hf hsecond hup h⟩
  | @behind pre post p n hfirst hp hn hpost =>
      rcases List.eq_nil_or_concat' post with rfl | ⟨post, e, rfl⟩
      · left
        refine ⟨.inr (.inr ⟨fun e he => ?_, fun p' hp' => ?_⟩), not_peak_behind hn h⟩
        · obtain rfl : n = e := by simpa using he
          exact hn
        · obtain rfl : p = p' := by simpa [List.dropLast_append_cons] using hp'
          exact hp
      · right
        exact ⟨not_inSweep_behind hfirst hn hpost, turns_behind hp hn hpost (by simp)⟩

end Exact

/-! ## The search -/

section Search

variable {Req : Type} {pos : Req → Nat} {l : Links (ListHead Req)} {q : Nat}
  {stray : Nat → Nat} {fuel n : Nat}

/-- The search ends before the first request that is not below `q`. -/
theorem forwardLoop_spec (hstray : ∀ i, q ≤ stray i) {zs : List Req}
    {prev w x : ListHead Req} (hv : Visits l.next w (zs.map .queuelist) .queue)
    (hx : forwardLoop pos l q stray fuel n prev (l.next w) = some x) :
    ∃ as bs, zs = as ++ bs ∧ x = (as.map .queuelist).getLastD prev ∧
      (∀ r ∈ as, pos r < q) ∧ ∀ r ∈ bs.head?, q ≤ pos r := by
  induction fuel generalizing n prev w zs with
  | zero => cases hx
  | succ fuel ih =>
      rw [forwardLoop, hv.first] at hx
      cases zs with
      | nil =>
          rw [if_neg (by exact not_lt.mpr (hstray n))] at hx
          exact ⟨[], [], rfl, (Option.some.inj hx).symm, by simp, by simp⟩
      | cons z zs =>
          split at hx
          · rename_i hz
            obtain ⟨as, bs, rfl, rfl, has, hbs⟩ := ih hv.2 hx
            refine ⟨z :: as, bs, rfl, ?_, List.forall_mem_cons.mpr ⟨hz, has⟩, hbs⟩
            exact List.getLastD_cons.symm
          · rename_i hz
            refine ⟨[], z :: zs, rfl, (Option.some.inj hx).symm, by simp, fun r hr => ?_⟩
            obtain rfl := Option.some.inj hr
            exact not_lt.mp hz

variable {f : Req} {rest : List Req} {x : ListHead Req} {req : Req}

/-- `x` is a place behind which a request at `q` keeps to `Placed`. -/
def PlaceFor (pos : Req → Nat) (q : Nat) (xs : List Req) (x : ListHead Req) : Prop :=
  ∃ ys zs, xs = ys ++ zs ∧ x = (ys.map .queuelist).getLastD .queue ∧
    Placed q (xs.map pos) (ys.map pos ++ q :: zs.map pos)

theorem forwardLoop_place (h : Holds l (f :: rest)) (hstray : ∀ i, q ≤ stray i)
    (hf : pos f < q)
    (hx : forwardLoop pos l q stray fuel 0 (l.prev .queue) (l.next .queue) = some x) :
    PlaceFor pos q (f :: rest) x := by
  obtain ⟨as, bs, hsplit, rfl, has, hbs⟩ := forwardLoop_spec hstray (Ring.forward h) hx
  cases as with
  | nil =>
      obtain rfl : f :: rest = bs := hsplit
      exact absurd hf (not_lt.mpr (hbs f rfl))
  | cons g as =>
      obtain ⟨rfl, rfl⟩ := List.cons.inj hsplit
      refine ⟨f :: as, bs, rfl, List.getLastD_cons.trans List.getLastD_cons.symm, ?_⟩
      rw [List.append_eq, List.map_cons, List.map_append, List.map_cons, List.cons_append]
      refine .forward hf ?_ ?_
      · simpa using fun r hr => has r (List.mem_cons_of_mem f hr)
      · simpa using hbs

theorem backwardLoop_place (h : Holds l (f :: rest)) (hstray : ∀ i, q ≤ stray i)
    (hf : q ≤ pos f)
    (hx : backwardLoop pos l q stray fuel 0 (l.prev .queue) (.queuelist f) = some x) :
    PlaceFor pos q (f :: rest) x := by
  rw [backwardLoop_eq] at hx
  obtain ⟨as, bs, hsplit, rfl, has, hbs⟩ := forwardLoop_spec hstray h.backward hx
  rcases List.eq_nil_or_concat' as with rfl | ⟨as, m, rfl⟩
  · rw [List.nil_append] at hsplit
    refine ⟨[f], rest, rfl, rfl, .front hf ?_⟩
    rw [← hsplit, List.head?_reverse] at hbs
    rw [← List.map_cons, List.getLast?_map]
    simpa using hbs
  · -- the first request stops the search, if none does before it
    cases bs with
    | nil =>
        rw [List.append_nil] at hsplit
        have hmem : f ∈ as ++ [m] := by
          rw [← hsplit]
          simp
        exact absurd (has f hmem) (not_lt.mpr hf)
    | cons p bs =>
        have hlist : f :: rest = bs.reverse ++ p :: m :: as.reverse := by
          rw [← List.reverse_reverse (f :: rest), hsplit]
          simp
        have hhead : (bs.reverse ++ [p]).head? = some f := by
          have hfirst := congrArg List.head? hlist
          rw [List.head?_append] at hfirst ⊢
          exact hfirst.symm
        refine ⟨bs.reverse ++ [p, m], as.reverse, by simp [hlist], by simp, ?_⟩
        rw [hlist]
        simp only [List.map_append, List.map_cons, List.map_nil, List.append_assoc,
          List.cons_append, List.nil_append]
        refine .behind ?_ (hbs p rfl) (has m (by simp)) ?_
        · rw [← List.map_singleton, ← List.map_append, List.head?_map, hhead]
          simpa using hf
        · intro v hv
          obtain ⟨r, hr, rfl⟩ := List.mem_map.mp hv
          exact has r (List.mem_append_left _ (List.mem_reverse.mp hr))

theorem findPlace_place (h : Holds l (f :: rest)) (hstray : ∀ i, pos req ≤ stray i)
    (hx : findPlace pos l req stray fuel = some x) : PlaceFor pos (pos req) (f :: rest) x := by
  have hfirst : l.next .queue = .queuelist f := (Ring.forward h).first
  unfold findPlace at hx
  simp only [hfirst, blkRqPos] at hx
  split at hx
  · rename_i hf
    rw [← hfirst] at hx
    exact forwardLoop_place h hstray hf hx
  · rename_i hf
    exact backwardLoop_place h hstray (not_lt.mp hf) hx

variable [DecidableEq Req]

/-- **`add_req`, when the head of the list stops the search.** -/
theorem addReq_placed {xs : List Req} (h : Holds l xs) (hnew : req ∉ xs)
    (hstray : ∀ i, pos req ≤ stray i) {out : Links (ListHead Req) × List Nat}
    (hout : addReq pos l req stray fuel = some out) :
    ∃ xs', Holds out.1 xs' ∧ Placed (pos req) (xs.map pos) (xs'.map pos) := by
  obtain ⟨rfl, hlinks⟩ | ⟨hne, x, hx, hlinks⟩ := addReq_cases h hout
  · rw [hlinks]
    exact ⟨[req], Holds.add [] [] h hnew, .empty⟩
  · obtain ⟨f, rest, rfl⟩ := List.exists_cons_of_ne_nil hne
    obtain ⟨ys, zs, hsplit, rfl, hplaced⟩ := findPlace_place h hstray hx
    rw [hsplit] at h hnew
    rw [hlinks]
    refine ⟨ys ++ req :: zs, Holds.add ys zs h hnew, ?_⟩
    rw [List.map_append, List.map_cons]
    exact hplaced

end Search

/-! ## Runs -/

section Runs

variable {Req : Type} {pos : Req → Nat}

/-- The requests of the queue, from `queue.next` to `queue.prev`. No more are
queued than have been added. -/
def State.queue (s : State Req) : List Req :=
  (entries s.links (s.log.length + 1) (s.links.next .queue)).getD []

variable [DecidableEq Req]

theorem added_of_pending {log : List (Event Req)} {r : Req} (h : pending log r = true) :
    Event.added r ∈ log := by
  induction log with
  | nil => cases h
  | cons e log ih =>
      cases e with
      | added q =>
          rw [pending] at h
          split at h
          · rename_i hq
            rw [hq]
            exact List.mem_cons_self
          · exact List.mem_cons_of_mem _ (ih h)
      | merged q | dispatched q =>
          rw [pending] at h
          split at h
          · cases h
          · exact List.mem_cons_of_mem _ (ih h)

theorem Agrees.queue_eq {s : State Req} {xs : List Req} (h : Agrees s xs) : s.queue = xs := by
  obtain ⟨hh, hpend⟩ := h
  have hsub : (xs.map Event.added).Subperm s.log := by
    refine List.Nodup.subperm (hh.nodup.map fun a b hab => ?_) fun e he => ?_
    · cases hab
      rfl
    · obtain ⟨r, hr, rfl⟩ := List.mem_map.mp he
      exact added_of_pending ((hpend r).mp hr)
  have hle : xs.length ≤ s.log.length := by simpa using hsub.length_le
  rw [State.queue, entries_spec (Ring.forward hh) (Nat.lt_succ_of_le hle)]
  rfl

/-- A comparison with the head of the list stops the search. -/
def HeadStops (pos : Req → Nat) : Label Req → Prop
  | .add req stray _ => ∀ i, pos req ≤ stray i
  | _ => True

/-- The sector positions, from `queue.next` to `queue.prev`, turn at most once. -/
def Sweeps (pos : Req → Nat) (s : State Req) : Prop := OneSweep (s.queue.map pos)

/-- A request that is added comes in at a place of the sweep. -/
def KeepsSweep (pos : Req → Nat) (s : State Req) : Label Req → Prop
  | .add req _ _ => InSweep (pos req) (s.queue.map pos)
  | _ => True

instance (s : State Req) : (a : Label Req) → Decidable (KeepsSweep pos s a)
  | .add _ _ _ => inferInstanceAs (Decidable (InSweep _ _))
  | .merge _ | .dispatch | .relink _ _ _ => .isTrue trivial

theorem sweeps_step {s s' : State Req} {a : Label Req} (hgood : HeadStops pos a)
    (hok : QueueOk s) (hpeak : ¬ Peak (s.queue.map pos)) (hn : next pos s a = some s') :
    (Sweeps pos s' ↔ KeepsSweep pos s a) ∧
      (KeepsSweep pos s a → ¬ Peak (s'.queue.map pos)) := by
  obtain ⟨xs, hagrees⟩ := hok.queue
  obtain ⟨xs', hagrees'⟩ := (hok.next hn).queue
  rw [Sweeps, hagrees'.queue_eq]
  rw [hagrees.queue_eq] at hpeak
  -- the other operations only take requests out
  have hsub : xs'.Sublist xs → (OneSweep (xs'.map pos) ↔ True) ∧
      (True → ¬ Peak (xs'.map pos)) := by
    intro hsub
    have hpeak' : ¬ Peak (xs'.map pos) := fun hp => hpeak (hp.mono (hsub.map pos))
    exact ⟨iff_true_intro (oneSweep_of_not_peak hpeak'), fun _ => hpeak'⟩
  obtain ⟨ys, hys, hstep⟩ := next_cases hagrees hn
  obtain rfl := hys.unique hagrees'.1
  cases a with
  | add req stray fuel =>
      simp only [next] at hn
      split at hn
      · cases hn
      · rename_i hfree
        obtain ⟨out, hout, rfl⟩ := Option.map_eq_some_iff.mp hn
        have hnew : req ∉ xs := fun hmem => hfree ((hagrees.2 req).mp hmem)
        obtain ⟨zs, hzs, hplaced⟩ := addReq_placed hagrees.1 hnew hgood hout
        obtain rfl := hzs.unique hys
        rw [KeepsSweep, hagrees.queue_eq]
        exact hplaced.oneSweep_iff hpeak
  | merge r =>
      generalize s.log = log, s'.log = log' at hstep
      cases hstep with
      | merge => exact hsub ((List.Sublist.refl _).append (List.sublist_cons_self r _))
  | dispatch =>
      generalize s.log = log, s'.log = log' at hstep
      cases hstep with
      | dispatch => exact hsub (List.sublist_cons_self _ _)
      | idle => exact hsub (List.Sublist.refl _)
  | relink req nx pv =>
      generalize s.log = log, s'.log = log' at hstep
      cases hstep with
      | relink => exact hsub (List.Sublist.refl _)

/-- **When the queue is one sweep.** A comparison with the head of the list may
well stop the search: the positions still turn at most once in every state of a
run exactly when every request comes in at a place of the sweep. -/
theorem sweep_iff (pos : Req → Nat) (s s' : State Req) (as : List (Label Req))
    (hinit : (machine pos).init s) (hstops : ∀ a ∈ as, HeadStops pos a)
    (hrun : (machine pos).replay s as = some s') :
    (machine pos).Along (Sweeps pos) s as ↔ (machine pos).StepsMeet (KeepsSweep pos) s as := by
  obtain ⟨l, rfl⟩ := hinit
  have hstep : ∀ s a s', HeadStops pos a → QueueOk s → ¬ Peak (s.queue.map pos) →
      (machine pos).next s a = some s' → (Sweeps pos s' ↔ KeepsSweep pos s a) ∧
        (KeepsSweep pos s a → ¬ Peak (s'.queue.map pos)) := fun s a s' => sweeps_step
  refine Machine.along_iff_stepsMeet_of (fun s a s' _ hok hn => QueueOk.next hok hn)
    (fun s => oneSweep_of_not_peak) hstep hstops (queueOk_init l) ?_ hrun
  have hempty : Agrees ⟨initListHead l .queue, []⟩ ([] : List Req) := by
    refine ⟨ring_init l .queue, fun r => ?_⟩
    simp [pending]
  rw [hempty.queue_eq]
  rintro ⟨a, b, c, hsub, -, -⟩
  cases hsub

end Runs

/-- Four requests come in; two go; one below those that are left comes in. -/
def oneSweepRun : List (Label Nat) :=
  [.add 10 (fun _ => 50) 8, .add 5 (fun _ => 50) 8, .add 7 (fun _ => 50) 8,
    .add 20 (fun _ => 50) 8, .merge 5, .dispatch, .add 6 (fun _ => 50) 8]

theorem sweep_iff_oneSweepRun : ∃ s s', (machine id).init s ∧
    (machine id).replay s oneSweepRun = some s' ∧ s'.queue = [7, 6, 20] ∧
    (machine id).Along (Sweeps id) s oneSweepRun := by
  have hrun : ((machine id).replay ⟨initListHead ⟨id, id⟩ .queue, []⟩ oneSweepRun).map
      State.queue = some [7, 6, 20] := by decide +kernel
  obtain ⟨s', hs', hqueue⟩ := Option.map_eq_some_iff.mp hrun
  refine ⟨_, s', ⟨_, rfl⟩, hs', hqueue, ?_⟩
  refine (sweep_iff id _ s' oneSweepRun ⟨_, rfl⟩ ?_ hs').mpr (by decide +kernel)
  simp [oneSweepRun, HeadStops]

/-- **Down, up and down again.** The request at 8 is put between those at 5 and 7. -/
theorem sweep_turns_twice : ∃ s s', (machine id).init s ∧
    (∀ a ∈ [10, 5, 7, 8].map (Label.add · (fun _ => 50) 8), HeadStops id a) ∧
    (machine id).replay s ([10, 5, 7, 8].map (Label.add · (fun _ => 50) 8)) = some s' ∧
    s'.queue = [10, 5, 8, 7] ∧ ¬ Sweeps id s' := by
  have hrun : ((machine id).replay ⟨initListHead ⟨id, id⟩ .queue, []⟩
      ([10, 5, 7, 8].map (Label.add · (fun _ => 50) 8))).map
      State.queue = some [10, 5, 8, 7] := by decide +kernel
  obtain ⟨s', hs', hqueue⟩ := Option.map_eq_some_iff.mp hrun
  refine ⟨_, s', ⟨_, rfl⟩, by simp [HeadStops], hs', hqueue, ?_⟩
  rw [Sweeps, hqueue]
  intro hone
  exact hone.not_peak_and_dip
    ⟨⟨5, 8, 7, by decide, by decide, by decide⟩, ⟨10, 5, 8, by decide, by decide, by decide⟩⟩

end OsProjects.Elevator
