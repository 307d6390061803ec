import Mathlib

/-!
# Stacks, as histories and as arrays

A history of a stack is what was pushed and what was handed out, latest first.
Which pushes are still on the stack (`untaken`) and which have been taken
(`takenOut`) follows from the order of the operations alone; the values handed
out are right if each is that of the push it took (`Lifo`).

`Stacked cells n xs` is a stack in an array: `n` is one above the top, and what
lies above it is of no account.
-/

namespace OsProjects.Framework

variable {α β : Type}

inductive StackOp (α β : Type) where
  | push (a : α)
  | take (b : β)   -- `b` was handed out
deriving DecidableEq, Repr

/-! ## Histories -/

/-- What has been pushed, latest first. -/
def pushed : List (StackOp α β) → List α
  | [] => []
  | .push a :: ops => a :: pushed ops
  | .take _ :: ops => pushed ops

/-- What is on the stack, from the top. -/
def untaken : List (StackOp α β) → List α
  | [] => []
  | .push a :: ops => a :: untaken ops
  | .take _ :: ops => (untaken ops).tail

/-- What has been taken, latest first. -/
def takenOut : List (StackOp α β) → List α
  | [] => []
  | .push _ :: ops => takenOut ops
  | .take _ :: ops => (untaken ops).head?.toList ++ takenOut ops

/-- Every value handed out is that of the top of the stack. -/
def Lifo (value : α → β) : List (StackOp α β) → Prop
  | [] => True
  | .push _ :: ops => Lifo value ops
  | .take b :: ops => (∃ a, (untaken ops).head? = some a ∧ value a = b) ∧ Lifo value ops

theorem pushed_append (ops ops' : List (StackOp α β)) :
    pushed (ops ++ ops') = pushed ops ++ pushed ops' := by
  induction ops with
  | nil => rfl
  | cons op ops ih =>
      cases op with
      | push a => exact congrArg (a :: ·) ih
      | take b => exact ih

/-- **Nothing is lost and nothing appears**: what was pushed is on the stack or
has been taken. -/
theorem pushed_perm (ops : List (StackOp α β)) :
    (pushed ops).Perm (untaken ops ++ takenOut ops) := by
  induction ops with
  | nil => exact .refl _
  | cons op ops ih =>
      cases op with
      | push a => exact ih.cons a
      | take b =>
          rw [pushed, untaken, takenOut]
          refine ih.trans ?_
          cases untaken ops with
          | nil => exact .refl _
          | cons a rest => exact List.perm_middle.symm

/-- **Nothing is taken twice**, and what has been taken is off the stack. -/
theorem takenOut_nodup {ops : List (StackOp α β)} (h : (pushed ops).Nodup) :
    (takenOut ops).Nodup ∧ ∀ a ∈ untaken ops, a ∉ takenOut ops := by
  obtain ⟨-, htaken, hdisjoint⟩ := List.nodup_append.mp ((pushed_perm ops).nodup_iff.mp h)
  exact ⟨htaken, fun a ha ha' => hdisjoint a ha a ha' rfl⟩

/-- Whatever was pushed after `a` is on top of it or has been taken. -/
theorem pushed_after {ops : List (StackOp α β)} {above below : List α} {a : α}
    (h : untaken ops = above ++ a :: below) :
    ∃ later earlier, ops = later ++ .push a :: earlier ∧
      ∀ b ∈ pushed later, b ∈ above ∨ b ∈ takenOut ops := by
  induction ops generalizing above with
  | nil =>
      rw [untaken] at h
      simp at h
  | cons op ops ih =>
      cases op with
      | push c =>
          rw [untaken] at h
          cases above with
          | nil =>
              obtain ⟨rfl, -⟩ := List.cons.inj h
              exact ⟨[], ops, rfl, by simp [pushed]⟩
          | cons d above =>
              obtain ⟨rfl, htail⟩ := List.cons.inj h
              obtain ⟨later, earlier, rfl, hlater⟩ := ih htail
              refine ⟨.push c :: later, earlier, rfl, fun b hb => ?_⟩
              rcases List.mem_cons.mp hb with rfl | hb
              · exact .inl List.mem_cons_self
              · exact (hlater b hb).imp_left (List.mem_cons_of_mem c)
      | take c =>
          rw [untaken] at h
          cases hun : untaken ops with
          | nil =>
              rw [hun] at h
              simp at h
          | cons d rest =>
              rw [hun, List.tail_cons] at h
              have htop : untaken ops = (d :: above) ++ a :: below := by
                rw [hun, h]
                rfl
              obtain ⟨later, earlier, rfl, hlater⟩ := ih htop
              refine ⟨.take c :: later, earlier, rfl, fun b hb => ?_⟩
              rw [takenOut, hun]
              rcases hlater b hb with hb | hb
              · rcases List.mem_cons.mp hb with rfl | hb
                · exact .inr List.mem_cons_self
                · exact .inl hb
              · exact .inr (List.mem_append_right _ hb)

/-- **The value handed out is that of the latest push that had not been taken.** -/
theorem Lifo.latest {value : α → β} {later earlier : List (StackOp α β)} {b : β}
    (h : Lifo value (later ++ .take b :: earlier)) :
    ∃ a since before, earlier = since ++ .push a :: before ∧ value a = b ∧
      a ∈ untaken earlier ∧ ∀ c ∈ pushed since, c ∈ takenOut earlier := by
  induction later with
  | nil =>
      obtain ⟨⟨a, ha, hvalue⟩, -⟩ := h
      cases hun : untaken earlier with
      | nil =>
          rw [hun] at ha
          cases ha
      | cons d below =>
          rw [hun] at ha
          obtain rfl := Option.some.inj ha
          have htop : untaken earlier = [] ++ d :: below := hun
          obtain ⟨since, before, rfl, hsince⟩ := pushed_after htop
          refine ⟨d, since, before, rfl, hvalue, List.mem_cons_self, fun c hc => ?_⟩
          exact (hsince c hc).resolve_left List.not_mem_nil
  | cons op later ih =>
      cases op with
      | push c => exact ih h
      | take c => exact ih h.2

/-! ## Arrays -/

/-- The cells below `n` hold `xs`, its head in cell `n - 1`. -/
def Stacked (cells : Int → β) : Int → List β → Prop
  | n, [] => n = 0
  | n, x :: xs => cells (n - 1) = x ∧ Stacked cells (n - 1) xs

variable {cells cells' : Int → β} {n : Int} {xs : List β} {x : β}

theorem Stacked.size (h : Stacked cells n xs) : n = xs.length := by
  induction xs generalizing n with
  | nil => exact h
  | cons x xs ih =>
      have htail := ih h.2
      rw [List.length_cons, Nat.cast_succ, ← htail, Int.sub_add_cancel]

/-- Cells above the top do not matter. -/
theorem Stacked.congr (h : Stacked cells n xs) (hag : ∀ i < n, cells' i = cells i) :
    Stacked cells' n xs := by
  induction xs generalizing n with
  | nil => exact h
  | cons x xs ih =>
      refine ⟨(hag _ (Int.sub_lt_self n one_pos)).trans h.1, ih h.2 fun i hi => ?_⟩
      exact hag i (hi.trans (Int.sub_lt_self n one_pos))

theorem Stacked.push (h : Stacked cells n xs) (x : β) :
    Stacked (Function.update cells n x) (n + 1) (x :: xs) := by
  rw [Stacked, Int.add_sub_cancel]
  refine ⟨Function.update_self .., h.congr fun i hi => Function.update_of_ne hi.ne _ _⟩

theorem Stacked.pop (h : Stacked cells n xs) (hn : 0 < n) :
    xs.head? = some (cells (n - 1)) ∧ Stacked cells (n - 1) xs.tail := by
  cases xs with
  | nil =>
      obtain rfl : n = 0 := h
      exact absurd hn (lt_irrefl 0)
  | cons x xs => exact ⟨congrArg some h.1.symm, h.2⟩

end OsProjects.Framework
