import OsProjects.Slob.PageAlloc

/-!
# Giving a block back to a page's free list

The reinsertion part of `slob_free`, lines 450-476, for a page that is already
partially free: find the address-ordered position, merge with the next free
block, merge with the previous one. Four coalescing cases come out of two
independent ones, so the proof has two stages: after `mergeNext` the block and
everything behind it is a chain again (`Placed`), and after `mergePrev` the
part in front is joined to it.

Which list results is not spelled out. It is gapped and covers the old list
plus the freed block, and that determines it (`Gapped.ext`).
-/

namespace OsProjects.Slob

open Framework

/-- Write the freed block, absorbing the free block at `next` if they touch. -/
def mergeNext (m : Mem) (b units next : Nat) : Mem :=
  if b + units = next then setSlob m b ((units : Int) + slobUnits m next) (slobNext m next)
  else setSlob m b units next

/-- Join the block at `b` to its predecessor, or link to it (lines 471-475). -/
def mergePrev (m : Mem) (b prev : Nat) : Mem :=
  if prev + slobUnits m prev = b then
    setSlob m prev ((slobUnits m b : Int) + slobUnits m prev) (slobNext m b)
  else setSlob m prev (slobUnits m prev) b

/-- `while (b > next) { prev = next; next = slob_next(prev); }` -/
def findGap (m : Mem) (b : Nat) : Nat → Nat → Nat → Option (Nat × Nat)
  | 0, _, _ => none
  | fuel + 1, prev, next =>
      if b > next then findGap m b fuel next (slobNext m next) else some (prev, next)

/-- Lines 450-476 of `slob_free` on the view of a page. -/
def pageFree (v : View) (b units : Nat) : Option View :=
  if b < v.freelist then
    some { mem := mergeNext v.mem b units v.freelist, freelist := b }
  else
    match findGap v.mem b (SLOB_UNITS PAGE_SIZE) v.freelist (slobNext v.mem v.freelist) with
    | none => none
    | some (prev, next) =>
        let m := if ¬ slobLast v.mem prev ∧ b + units = next then
            setSlob v.mem b ((units : Int) + slobUnits v.mem next) (slobNext v.mem next)
          else setSlob v.mem b units next
        some { v with mem := mergePrev m b prev }

/-! ## The freed block and what lies behind it -/

/-- `m'` is `m` with the block `e` put in front of the chain `post`: one chain
again, starting at `e`, covering both, and nothing else was written. -/
structure Placed (m m' : Mem) (pn : Nat) (e : Ext) (post : List Ext) (g : Ext)
    (rest : List Ext) : Prop where
  start : g.start = e.start
  linked : Linked m' (pageStop pn) (g :: rest)
  gapped : Gapped (g :: rest)
  inPage : ∀ f ∈ g :: rest, InPage pn f
  covers : ∀ u, Covers (g :: rest) u ↔ Covers (e :: post) u
  same : SameOutside (e :: post) m m'

section Place

variable {m : Mem} {pn : Nat} {e : Ext}

/-- Nothing to absorb: the block goes in as it is. -/
theorem placed_alone {post : List Ext} (hepos : 0 < e.len) (hein : InPage pn e)
    (hg : Gapped post) (hin : ∀ f ∈ post, InPage pn f)
    (hl : Linked m (pageStop pn) post) (hafter : ∀ f ∈ post, e.stop < f.start) :
    Placed m (setSlob m e.start e.len (headOr (pageStop pn) post)) pn e post e post := by
  have hgap : Gapped (e :: post) := gapped_cons.mpr ⟨hepos, hafter, hg⟩
  have hall : ∀ f ∈ e :: post, InPage pn f := List.forall_mem_cons.mpr ⟨hein, hin⟩
  have hslot := (laid_of_gapped hgap hall).slot
  refine ⟨rfl, ⟨encoded_setSlob m hslot, ?_⟩, hgap, hall, fun _ => Iff.rfl, ?_⟩
  · exact hl.setSlob hg.pos hslot fun f hf => Or.inl (Nat.le_of_lt (hafter f hf))
  · exact sameOutside_setSlob hslot fun u hu => by simp [hu]

/-- The block touches the next free one and swallows it. -/
theorem placed_merged {f : Ext} {fs : List Ext} (hein : InPage pn e)
    (hg : Gapped (f :: fs)) (hin : ∀ x ∈ f :: fs, InPage pn x)
    (hl : Linked m (pageStop pn) (f :: fs)) (htouch : e.stop = f.start) :
    Placed m (setSlob m e.start ((e.len : Int) + slobUnits m f.start)
      (slobNext m f.start)) pn e (f :: fs) (e.join f) fs := by
  obtain ⟨hfin, hfsin⟩ := List.forall_mem_cons.mp hin
  have hfslot := (laid_of_gapped hg hin).slot
  have hgap := hg.join htouch
  obtain ⟨-, hafter, hfs⟩ := gapped_cons.mp hgap
  have hall : ∀ x ∈ e.join f :: fs, InPage pn x :=
    List.forall_mem_cons.mpr ⟨Ext.Within.join hein hfin htouch, hfsin⟩
  have hslot := (laid_of_gapped hgap hall).slot
  rw [hl.1.slobUnits hfslot, hl.1.slobNext hfslot, ← Nat.cast_add]
  refine ⟨rfl, ⟨encoded_setSlob (e := e.join f) m hslot, ?_⟩, hgap, hall, ?_, ?_⟩
  · apply hl.2.setSlob (e := e.join f) hfs.pos hslot
    intro x hx
    exact Or.inl (Nat.le_of_lt (hafter x hx))
  · intro u
    simp only [covers_cons, Ext.has_join htouch, or_assoc]
  · apply sameOutside_setSlob (e := e.join f) hslot
    intro u hu
    simp only [covers_cons]
    rcases (Ext.has_join htouch u).mp hu with h | h
    · exact Or.inl h
    · exact Or.inr (Or.inl h)

theorem mergeNext_spec {f : Ext} {fs : List Ext} (hepos : 0 < e.len)
    (hein : InPage pn e) (hg : Gapped (f :: fs)) (hin : ∀ x ∈ f :: fs, InPage pn x)
    (hl : Linked m (pageStop pn) (f :: fs)) (hafter : ∀ x ∈ f :: fs, e.stop ≤ x.start) :
    ∃ g rest, Placed m (mergeNext m e.start e.len f.start) pn e (f :: fs) g rest := by
  unfold mergeNext
  by_cases htouch : e.start + e.len = f.start
  · rw [if_pos htouch]
    exact ⟨_, _, placed_merged hein hg hin hl htouch⟩
  · rw [if_neg htouch]
    have hlt : e.stop < f.start := Nat.lt_of_le_of_ne (hafter f List.mem_cons_self) htouch
    exact ⟨_, _, placed_alone hepos hein hg hin hl (hg.all_after hlt)⟩

end Place

/-! ## Joining the part in front -/

/-- Writing the header of `q` makes one chain of what lies before it and what
lies behind. -/
theorem linked_through {m : Mem} {pn : Nat} {pre qs : List Ext} {q : Ext} (hgpre : Gapped pre)
    (hprein : ∀ x ∈ pre, InPage pn x) (hlpre : Linked m q.start pre)
    (hbefore : ∀ x ∈ pre, x.stop < q.start) (hg : Gapped (q :: qs))
    (hin : ∀ x ∈ q :: qs, InPage pn x) (hl : Linked m (pageStop pn) qs) :
    Gapped (pre ++ q :: qs) ∧ (∀ x ∈ pre ++ q :: qs, InPage pn x) ∧
      Linked (setSlob m q.start q.len (headOr (pageStop pn) qs)) (pageStop pn)
        (pre ++ q :: qs) := by
  obtain ⟨hqpos, hqafter, hgqs⟩ := gapped_cons.mp hg
  have hslot := (laid_of_gapped hg hin).slot
  refine ⟨hgpre.mid hgqs hqpos hbefore hqafter, ?_, linked_append.mpr
    ⟨?_, encoded_setSlob m hslot, ?_⟩⟩
  · intro x hx
    rcases List.mem_append.mp hx with hx | hx
    · exact hprein x hx
    · exact hin x hx
  · exact hlpre.setSlob hgpre.pos hslot fun x hx => Or.inr (Nat.le_of_lt (hbefore x hx))
  · exact hl.setSlob hgqs.pos hslot fun x hx => Or.inl (Nat.le_of_lt (hqafter x hx))

/-- **`mergePrev` joins the two halves of the list.** `pre ++ [p]` lies in
front of the chain `g :: rest`. -/
theorem mergePrev_spec {m : Mem} {pn old : Nat} {pre rest : List Ext} {p g : Ext}
    (hpre : Gapped (pre ++ [p])) (hprein : ∀ x ∈ pre ++ [p], InPage pn x)
    (hlpre : Linked m old (pre ++ [p]))
    (hold : pageStart pn < old ∧ old ≤ pageStop pn)
    (hg : Gapped (g :: rest)) (hin : ∀ x ∈ g :: rest, InPage pn x)
    (hl : Linked m (pageStop pn) (g :: rest)) (hpg : p.stop ≤ g.start) :
    ∃ q qs, Gapped (pre ++ q :: qs) ∧ (∀ x ∈ pre ++ q :: qs, InPage pn x) ∧
      q.start = p.start ∧
      Linked (mergePrev m g.start p.start) (pageStop pn) (pre ++ q :: qs) ∧
      (∀ u, Covers (pre ++ q :: qs) u ↔ Covers (pre ++ [p]) u ∨ Covers (g :: rest) u) ∧
      SameOutside ((pre ++ [p]) ++ g :: rest) m (mergePrev m g.start p.start) := by
  obtain ⟨hgpre, hgp, hcross⟩ := gapped_append.mp hpre
  obtain ⟨hppos, -, -⟩ := gapped_cons.mp hgp
  obtain ⟨hgin, hrestin⟩ := List.forall_mem_cons.mp hin
  obtain ⟨hlx, hlp⟩ := linked_append.mp hlpre
  have hpin := hprein p (by simp)
  have hbefore : ∀ x ∈ pre, x.stop < p.start := fun x hx => hcross x hx p (by simp)
  have hprein' : ∀ x ∈ pre, InPage pn x := fun x hx => hprein x (List.mem_append_left _ hx)
  have hpenc : Encoded m p old := hlp.1
  have hpunits := hpenc.slobUnits ⟨hpin, hppos, hold.1, hold.2⟩
  have hgslot := (laid_of_gapped hg hin).slot
  have hgunits := hl.1.slobUnits hgslot
  have hgnext := hl.1.slobNext hgslot
  rw [mergePrev, hpunits, hgunits, hgnext]
  by_cases htouch : p.start + p.len = g.start
  · -- the two become one block
    rw [if_pos htouch, add_comm (g.len : Int), ← Nat.cast_add]
    have hqgap := hg.join htouch
    have hqin : ∀ x ∈ p.join g :: rest, InPage pn x :=
      List.forall_mem_cons.mpr ⟨Ext.Within.join hpin hgin htouch, hrestin⟩
    obtain ⟨h1, h2, h3⟩ :=
      linked_through (q := p.join g) hgpre hprein' hlx hbefore hqgap hqin hl.2
    refine ⟨p.join g, rest, h1, h2, rfl, h3, ?_, ?_⟩
    · intro u
      simp only [covers_append, covers_cons, Ext.has_join htouch, covers_nil, or_false, or_assoc]
    · apply sameOutside_setSlob (e := p.join g) (laid_of_gapped hqgap hqin).slot
      intro u hu
      simp only [covers_append, covers_cons]
      rcases (Ext.has_join htouch u).mp hu with h | h
      · exact Or.inl (Or.inr (Or.inl h))
      · exact Or.inr (Or.inl h)
  · rw [if_neg htouch]
    have hlt : p.stop < g.start := Nat.lt_of_le_of_ne hpg htouch
    have hpgap : Gapped (p :: g :: rest) :=
      gapped_cons.mpr ⟨hppos, hg.all_after hlt, hg⟩
    have hpsin : ∀ x ∈ p :: g :: rest, InPage pn x := List.forall_mem_cons.mpr ⟨hpin, hin⟩
    obtain ⟨h1, h2, h3⟩ := linked_through hgpre hprein' hlx hbefore hpgap hpsin hl
    refine ⟨p, g :: rest, h1, h2, rfl, h3, ?_, ?_⟩
    · intro u
      simp only [covers_append, covers_cons, covers_nil, or_false, or_assoc]
    · exact sameOutside_setSlob (laid_of_gapped hpgap hpsin).slot fun u hu => by simp [hu]

/-! ## Finding the position -/

/-- The walk stops between two consecutive blocks around `b`. The induction is
on what lies behind `p`. -/
theorem findGap_spec {v : View} {pn b : Nat} (hb : b < pageStop pn) :
    ∀ {post : List Ext} (pre : List Ext) {p : Ext} (fuel : Nat),
    FreeList v pn (pre ++ p :: post) → post.length < fuel → p.start ≤ b →
    ∃ xs q ys, pre ++ p :: post = xs ++ q :: ys ∧ q.start ≤ b ∧
      b ≤ headOr (pageStop pn) ys ∧
      findGap v.mem b fuel p.start (headOr (pageStop pn) post) =
        some (q.start, headOr (pageStop pn) ys)
  | _, _, _, 0, _, h, _ => absurd h (Nat.not_lt_zero _)
  | [], pre, p, fuel + 1, _, _, hp => by
      refine ⟨pre, p, [], rfl, hp, Nat.le_of_lt hb, ?_⟩
      rw [findGap, if_neg (by simp only [headOr]; omega)]
  | f :: fs, pre, p, fuel + 1, hfl, hlen, hp => by
      rw [findGap]
      by_cases hlt : b > headOr (pageStop pn) (f :: fs)
      · have hfl' : FreeList v pn ((pre ++ [p]) ++ f :: fs) := by
          rw [List.append_assoc]
          exact hfl
        obtain ⟨-, hrest, -⟩ := laid_append.mp hfl'.laid
        obtain ⟨-, henc, -⟩ := linked_append.mp hfl'.linked
        obtain ⟨xs, q, ys, heq, hq, hys, hres⟩ := findGap_spec hb _ fuel hfl'
          (Nat.lt_of_succ_lt_succ hlen) (Nat.le_of_lt hlt)
        refine ⟨xs, q, ys, ?_, hq, hys, ?_⟩
        · rw [← heq, List.append_assoc]
          rfl
        · rw [if_pos hlt, ← hres, headOr, henc.slobNext hrest.slot]
      · refine ⟨pre, p, f :: fs, rfl, hp, by omega, ?_⟩
        rw [if_neg hlt]

/-! ## The whole reinsertion -/

/-- Around the position of an extent that overlaps nothing, everything in front
ends before it and everything behind starts after it. -/
theorem split_apart {xs ys : List Ext} {q e : Ext} {stop : Nat}
    (hg : Gapped (xs ++ q :: ys)) (hepos : 0 < e.len)
    (hap : ∀ f ∈ xs ++ q :: ys, e.Apart f) (hq : q.start ≤ e.start)
    (hys : e.start ≤ headOr stop ys) :
    q.stop ≤ e.start ∧ ∀ y ∈ ys, e.stop ≤ y.start := by
  obtain ⟨-, hqy, -⟩ := gapped_append.mp hg
  obtain ⟨hqpos, -, hgy⟩ := gapped_cons.mp hqy
  have hqap := hap q (by simp)
  refine ⟨?_, ?_⟩
  · unfold Ext.Apart Ext.stop at *
    omega
  · intro y hy
    have hyap := hap y (by simp [hy])
    have hypos := hgy.pos y hy
    have hle : e.start ≤ y.start := by
      cases ys with
      | nil => simp at hy
      | cons z zs =>
          exact Nat.le_trans hys (hgy.start_le hy)
    unfold Ext.Apart Ext.stop at *
    omega

/-- A block in front of the head lies in front of the whole list. -/
theorem before_all {p e : Ext} {ps : List Ext} (hg : Gapped (p :: ps))
    (hap : ∀ f ∈ p :: ps, e.Apart f) (hlt : e.start < p.start) :
    ∀ x ∈ p :: ps, e.stop ≤ x.start := by
  intro x hx
  have hxap := hap x hx
  have hle : e.start < x.start := Nat.lt_of_lt_of_le hlt (hg.start_le hx)
  have hxpos := hg.pos x hx
  unfold Ext.Apart Ext.stop at *
  omega

/-- **In the gap behind `q`**: whatever branch is taken, the block is placed in
front of `ys`. -/
theorem placed_between {m : Mem} {pn : Nat} {q e : Ext} {ys : List Ext} (hepos : 0 < e.len)
    (hein : InPage pn e) (hqslot : Slot pn q (headOr (pageStop pn) ys))
    (hlq : Encoded m q (headOr (pageStop pn) ys)) (hgy : Gapped ys)
    (hyin : ∀ y ∈ ys, InPage pn y) (hly : Linked m (pageStop pn) ys)
    (hey : ∀ y ∈ ys, e.stop ≤ y.start) :
    ∃ g rest, Placed m
      (if ¬ slobLast m q.start = true ∧ e.start + e.len = headOr (pageStop pn) ys then
        setSlob m e.start ((e.len : Int) + slobUnits m (headOr (pageStop pn) ys))
          (slobNext m (headOr (pageStop pn) ys))
      else setSlob m e.start e.len (headOr (pageStop pn) ys)) pn e ys g rest := by
  cases ys with
  | nil =>
      rw [if_neg (fun h => h.1 ((hlq.slobLast hqslot).mpr rfl))]
      exact ⟨_, _, placed_alone hepos hein Gapped.nil (by simp) trivial (by simp)⟩
  | cons y yt =>
      have hnot : ¬ slobLast m q.start = true := by
        rw [hlq.slobLast hqslot]
        have h1 := hgy.pos y List.mem_cons_self
        have h2 := hyin y List.mem_cons_self
        simp only [headOr, InPage, Ext.Within, Ext.stop] at *
        omega
      have := mergeNext_spec hepos hein hgy hyin hly hey
      simpa only [mergeNext, headOr, hnot, Bool.false_eq_true, not_false_eq_true, true_and]
        using this

/-- What lies up to `q` is apart from the freed block and from what is behind. -/
theorem front_apart {xs ys : List Ext} {q e : Ext} (hg : Gapped (xs ++ q :: ys))
    (hqe : q.stop ≤ e.start) : ∀ x ∈ xs ++ [q], ∀ f ∈ e :: ys, x.Apart f := by
  obtain ⟨-, hgq, hcross⟩ := gapped_append.mp hg
  obtain ⟨-, hqafter, -⟩ := gapped_cons.mp hgq
  intro x hx f hf
  have hxq : x.stop ≤ q.stop := by
    rcases List.mem_append.mp hx with hx | hx
    · have := hcross x hx q List.mem_cons_self
      unfold Ext.stop at *
      omega
    · rw [List.mem_singleton.mp hx]
  rcases List.mem_cons.mp hf with rfl | hf
  · exact Or.inl (Nat.le_trans hxq hqe)
  · exact Or.inl (Nat.le_trans hxq (Nat.le_of_lt (hqafter f hf)))

/-- The part of a list up to `q` is a list. -/
theorem gapped_upto {xs ys : List Ext} {q : Ext} (hg : Gapped (xs ++ q :: ys)) :
    Gapped (xs ++ [q]) := by
  rw [← List.singleton_append, ← List.append_assoc] at hg
  exact (gapped_append.mp hg).1

/-- **Reinsertion.** Giving back an extent that overlaps no free block always
succeeds and leaves a coalesced, address-ordered list that covers exactly the
old list and the extent; nothing outside them is written. -/
theorem pageFree_spec {v : View} {pn : Nat} {fl : List Ext} {e : Ext}
    (hfl : FreeList v pn fl) (hne : fl ≠ []) (hepos : 0 < e.len) (hein : InPage pn e)
    (hap : ∀ f ∈ fl, e.Apart f) :
    ∃ v' fl', pageFree v e.start e.len = some v' ∧ FreeList v' pn fl' ∧ fl' ≠ [] ∧
      (∀ u, Covers fl' u ↔ e.Has u ∨ Covers fl u) ∧ SameOutside (e :: fl) v.mem v'.mem := by
  obtain ⟨p, ps, rfl⟩ := List.exists_cons_of_ne_nil hne
  have hhead : v.freelist = p.start := hfl.head hne
  have hlen := gapped_length_le hfl.gapped hfl.inPage
  rw [pageFree, hhead]
  by_cases hlt : e.start < p.start
  · -- in front of the whole list: only the next block can be absorbed
    rw [if_pos hlt]
    obtain ⟨g, rest, hpl⟩ := mergeNext_spec hepos hein hfl.gapped hfl.inPage hfl.linked
      (before_all hfl.gapped hap hlt)
    refine ⟨_, g :: rest, rfl, ⟨hpl.gapped, hpl.inPage, hpl.linked, ?_⟩, by simp, ?_, hpl.same⟩
    · intro _
      exact hpl.start.symm
    · intro u
      rw [hpl.covers, covers_cons]
  · rw [if_neg hlt]
    have hpage : e.start < pageStop pn := by
      unfold InPage Ext.Within Ext.stop at hein
      omega
    obtain ⟨xs, q, ys, heq, hq, hys, hfind⟩ := findGap_spec hpage []
      (SLOB_UNITS PAGE_SIZE) hfl hlen (by omega)
    have hpslot := hfl.laid.slot
    rw [hfl.linked.1.slobNext hpslot, hfind]
    rw [List.nil_append] at heq
    rw [heq] at hfl hap
    have hgy : Gapped ys := (gapped_cons.mp (gapped_append.mp hfl.gapped).2.1).2.2
    obtain ⟨hlx, hlq, hly⟩ := linked_append.mp hfl.linked
    have hyin : ∀ y ∈ ys, InPage pn y := fun y hy => hfl.inPage y (by simp [hy])
    obtain ⟨hqe, hey⟩ := split_apart hfl.gapped hepos hap hq hys
    have hqslot : Slot pn q (headOr (pageStop pn) ys) :=
      (laid_append.mp hfl.laid).2.1.slot
    obtain ⟨g, rest, hpl⟩ := placed_between hepos hein hqslot hlq hgy hyin hly hey
    have hgstart := hpl.start
    -- what lies in front is not written by placing the block
    have hlpre : Linked v.mem (headOr (pageStop pn) ys) (xs ++ [q]) :=
      linked_append.mpr ⟨hlx, hlq, trivial⟩
    have hgpre := gapped_upto hfl.gapped
    have hprein : ∀ x ∈ xs ++ [q], InPage pn x := by
      intro x hx
      refine hfl.inPage x ?_
      rcases List.mem_append.mp hx with hx | hx
      · exact List.mem_append_left _ hx
      · rw [List.mem_singleton.mp hx]
        simp
    have hlpre' := hlpre.sameOutside hgpre.pos hpl.same (front_apart hfl.gapped hqe)
    obtain ⟨r, rs, h1, h2, h3, h4, h5, h6⟩ := mergePrev_spec hgpre hprein hlpre'
      ⟨hqslot.lo, hqslot.hi⟩ hpl.gapped hpl.inPage hpl.linked (by rw [hgstart]; exact hqe)
    rw [hgstart] at h4 h6
    dsimp only
    generalize mergePrev _ e.start q.start = m2 at h4 h6 ⊢
    refine ⟨_, xs ++ r :: rs, rfl, ⟨h1, h2, h4, ?_⟩, by simp, ?_, ?_⟩
    · intro _
      rw [headOr_append]
      have hstart := hfl.head (by simp)
      rw [hhead, headOr_append] at hstart
      simp only [headOr] at hstart ⊢
      rw [hstart, h3]
    · intro u
      rw [h5, hpl.covers, heq]
      simp only [covers_append, covers_cons, covers_nil, or_false, or_assoc, or_left_comm]
    · rw [heq]
      refine (hpl.same.mono ?_).trans (h6.mono ?_)
      · intro u hu
        simp only [covers_append, covers_cons] at hu ⊢
        exact hu.imp_right fun h => .inr (.inr h)
      · intro u hu
        rw [covers_append, hpl.covers] at hu
        simp only [covers_append, covers_cons, covers_nil, or_false, or_assoc, or_left_comm]
          at hu ⊢
        exact hu

end OsProjects.Slob
