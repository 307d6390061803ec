import Mathlib

/-!
# Counting loops

`forLoop lo hi body` is `for (k = lo; k < hi; k++)`, and `repeatLoop n body` is
`for (; n; n--)` with a body that may go wrong. A loop is reasoned about through what
its body keeps: a property of the counter and the state (`forLoop_invariant`,
`repeatLoop_invariant`), or a relation to another run of the loop (`forLoop_rel`,
`repeatLoop_rel`).
-/

namespace OsProjects.Framework

variable {σ τ : Type}

def forLoop (lo hi : Nat) (body : Nat → σ → σ) (s : σ) : σ :=
  (List.range' lo (hi - lo)).foldl (fun s k => body k s) s

/-- An invariant of the counter and the state. -/
theorem forLoop_invariant {P : Nat → σ → Prop} {lo hi : Nat} {body : Nat → σ → σ} {s : σ}
    (hle : lo ≤ hi) (h0 : P lo s)
    (hstep : ∀ k s, lo ≤ k → k < hi → P k s → P (k + 1) (body k s)) :
    P hi (forLoop lo hi body s) := by
  unfold forLoop
  obtain ⟨n, rfl⟩ := Nat.exists_eq_add_of_le hle
  rw [Nat.add_sub_cancel_left]
  clear hle
  -- the loop is cut at its first round
  induction n generalizing lo s with
  | zero => exact h0
  | succ n ih =>
      rw [List.range'_succ, List.foldl_cons, ← Nat.add_assoc, Nat.add_right_comm]
      refine ih (hstep lo s (Nat.le_refl lo) (by omega) h0) fun k s hlo hhi => ?_
      exact hstep k s (by omega) (by omega)

/-- Two loops in step with each other. -/
theorem forLoop_rel {R : σ → τ → Prop} {lo hi : Nat} {body : Nat → σ → σ} {body' : Nat → τ → τ}
    {s : σ} {t : τ} (h0 : R s t)
    (hstep : ∀ k s t, lo ≤ k → k < hi → R s t → R (body k s) (body' k t)) :
    R (forLoop lo hi body s) (forLoop lo hi body' t) := by
  unfold forLoop
  have hmem : ∀ k ∈ List.range' lo (hi - lo), lo ≤ k ∧ k < hi := by
    intro k hk
    rw [List.mem_range'_1] at hk
    omega
  generalize List.range' lo (hi - lo) = ks at hmem
  induction ks generalizing s t with
  | nil => exact h0
  | cons k ks ih =>
      obtain ⟨hk, hks⟩ := List.forall_mem_cons.mp hmem
      exact ih (hstep k s t hk.1 hk.2 h0) hks

def repeatLoop (body : σ → Option σ) : Nat → σ → Option σ
  | 0, s => some s
  | n + 1, s => (body s).bind (repeatLoop body n)

theorem repeatLoop_invariant {P : σ → Prop} {body : σ → Option σ}
    (hstep : ∀ s, P s → ∃ s', body s = some s' ∧ P s') :
    ∀ {n : Nat} {s : σ}, P s → ∃ s', repeatLoop body n s = some s' ∧ P s'
  | 0, s, h => ⟨s, rfl, h⟩
  | n + 1, s, h => by
      obtain ⟨s', hs', h'⟩ := hstep s h
      rw [repeatLoop, hs']
      exact repeatLoop_invariant hstep h'

theorem rel_bind {σ' τ' : Type} {R : σ → τ → Prop} {S : σ' → τ' → Prop} {o : Option σ}
    {o' : Option τ} {f : σ → Option σ'} {f' : τ → Option τ'} (h : Option.Rel R o o')
    (hf : ∀ s t, R s t → Option.Rel S (f s) (f' t)) : Option.Rel S (o.bind f) (o'.bind f') := by
  cases h with
  | none => exact .none
  | some h => exact hf _ _ h

theorem repeatLoop_rel {R : σ → τ → Prop} {body : σ → Option σ} {body' : τ → Option τ}
    (hstep : ∀ s t, R s t → Option.Rel R (body s) (body' t)) :
    ∀ {n : Nat} {s : σ} {t : τ}, R s t → Option.Rel R (repeatLoop body n s) (repeatLoop body' n t)
  | 0, _, _, h => .some h
  | _ + 1, s, t, h => rel_bind (hstep s t h) fun _ _ h' => repeatLoop_rel hstep h'

end OsProjects.Framework
