import Mathlib.Data.Set.Insert

/-!
Elements that are taken out of a set one after the other, where each removal may
fail, and the sets that are kept in the bits of a word.
-/

namespace Cntr.AttemptedRemovals

section Removals

variable {α : Type}

/-- What is left of a set; an attempt tells whether its removal succeeded. -/
def remaining : Set α → List (α × Bool) → Set α
  | S, [] => S
  | S, (a, true) :: attempts => remaining (S \ {a}) attempts
  | S, (_, false) :: attempts => remaining S attempts

/-- If there is one attempt for each element, then no failure hinders another removal. -/
theorem remaining_eq {attempts : List (α × Bool)} (h : (attempts.map Prod.fst).Nodup)
    (S : Set α) :
    remaining S attempts = S \ {a | a ∈ attempts.map Prod.fst ∧ (a, false) ∉ attempts} := by
  induction attempts generalizing S with
  | nil =>
      ext b
      simp [remaining]
  | cons attempt attempts ih =>
      obtain ⟨a, succeeded⟩ := attempt
      obtain ⟨hnone, hnodup⟩ := List.nodup_cons.mp h
      have hfresh : ∀ succeeded, (a, succeeded) ∉ attempts := fun succeeded hmem =>
        hnone (List.mem_map.mpr ⟨(a, succeeded), hmem, rfl⟩)
      cases succeeded with
      | true =>
          rw [remaining, ih hnodup]
          ext b
          by_cases hb : b = a
          · subst hb
            simp [hfresh]
          · simp [hb]
      | false =>
          rw [remaining, ih hnodup]
          ext b
          by_cases hb : b = a
          · subst hb
            simp [hfresh]
          · simp [hb]

theorem inter_subset_remaining {keep : Set α} {attempts : List (α × Bool)}
    (h : ∀ a ∈ attempts.map Prod.fst, a ∉ keep) (S : Set α) :
    S ∩ keep ⊆ remaining S attempts := by
  induction attempts generalizing S with
  | nil => exact fun _ hb => hb.1
  | cons attempt attempts ih =>
      obtain ⟨a, succeeded⟩ := attempt
      obtain ⟨ha, hrest⟩ := List.forall_mem_cons.mp h
      cases succeeded with
      | true =>
          rintro b ⟨hb, hkeep⟩
          have hne : b ≠ a := fun heq => ha (heq ▸ hkeep)
          exact ih hrest (S \ {a}) ⟨⟨hb, hne⟩, hkeep⟩
      | false => exact ih hrest S

end Removals

section Words

variable {w : Nat}

/-- The positions of the bits that are set. -/
def members (x : BitVec w) : Set Nat := {i | x.getLsbD i = true}

theorem mem_members {x : BitVec w} {i : Nat} : i ∈ members x ↔ x.getLsbD i = true := Iff.rfl

theorem members_clear (x y : BitVec w) : members (x &&& ~~~y) = members x \ members y := by
  ext i
  simp only [mem_members, BitVec.getLsbD_and, BitVec.getLsbD_not, Set.mem_sdiff,
    Bool.and_eq_true, Bool.not_eq_true', decide_eq_true_eq]
  constructor
  · rintro ⟨hx, -, hy⟩
    exact ⟨hx, by simp [hy]⟩
  · rintro ⟨hx, hy⟩
    exact ⟨hx, BitVec.lt_of_getLsbD hx, by simpa using hy⟩

theorem members_one_shiftLeft {i : Nat} (h : i < w) : members (1#w <<< i) = {i} := by
  ext j
  rw [← BitVec.twoPow_eq, mem_members, BitVec.getLsbD_twoPow]
  simp [h, eq_comm]

end Words

end Cntr.AttemptedRemovals
