import OsProjects.Framework.Machine

/-!
# One machine follows another

A relation between the states of two machines that their steps keep. In lockstep, label
for label, it carries over to whole runs and to whether they can be replayed at all
(`replay_rel`). A step may also be answered by a step with a label of the other machine's
own choice, or by none; then every state the one reaches is related to one that the
other reaches (`ReachVia.simulate`).
-/

namespace OsProjects.Framework.Machine

universe u v u' v'

variable {σ : Type u} {α : Type v} {τ : Type u'} {β : Type v'} {M : Machine σ α} {M' : Machine τ β}
  {R : σ → τ → Prop}

theorem replay_rel {f : α → β}
    (hstep : ∀ s t a, R s t → Option.Rel R (M.next s a) (M'.next t (f a))) :
    ∀ {as : List α} {s : σ} {t : τ}, R s t →
      Option.Rel R (M.replay s as) (M'.replay t (as.map f))
  | [], _, _, h => .some h
  | a :: as, s, t, h => by
      have hnext := hstep s t a h
      rw [List.map_cons, replay, replay]
      generalize M.next s a = o, M'.next t (f a) = o' at hnext
      cases hnext with
      | none => exact .none
      | some h' => exact replay_rel hstep h'

theorem ReachVia.simulate {ok : σ → α → Prop} {ok' : τ → β → Prop}
    (hinit : ∀ s, M.init s → ∃ t, M'.init t ∧ R s t)
    (hstep : ∀ s t a s', M'.ReachVia ok' t → R s t → ok s a → M.next s a = some s' →
      R s' t ∨ ∃ b t', ok' t b ∧ M'.next t b = some t' ∧ R s' t')
    {s : σ} (h : M.ReachVia ok s) : ∃ t, M'.ReachVia ok' t ∧ R s t := by
  induction h with
  | init h0 =>
      obtain ⟨t, ht, hR⟩ := hinit _ h0
      exact ⟨t, .init ht, hR⟩
  | step _ hok hn ih =>
      obtain ⟨t, ht, hR⟩ := ih
      rcases hstep _ t _ _ ht hR hok hn with hR' | ⟨b, t', hok', hn', hR'⟩
      · exact ⟨t, ht, hR'⟩
      · exact ⟨t', ht.step hok' hn', hR'⟩

end OsProjects.Framework.Machine
