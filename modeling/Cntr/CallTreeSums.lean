import Cntr.CallTreeFrames

/-!
Programs that make calls of two kinds, and programs of the first kind as such
programs.
-/

namespace Cntr.CallTree

variable {S T : Signature} {η ε ε' σ τ : Type} {α β γ : Type}

@[reducible] def Signature.sum (S T : Signature) : Signature where
  Call := S.Call ⊕ T.Call
  Answer := Sum.elim S.Answer T.Answer

/-- What a kernel does with the calls of the first kind. -/
def Kernel.left (K : Kernel (S.sum T) σ) : Kernel S σ := fun s c r t => K s (.inl c) r t

/-- The kernel that answers the calls of the first kind as `K` does; the others
get any answer and change nothing. -/
def Kernel.beyond (K : Kernel S σ) : Kernel (S.sum T) σ
  | s, .inl c, r, t => K s c r t
  | s, .inr _, _, t => t = s

namespace Program

/-- A program as one that could make other calls too. -/
def left : {α : Type} → Program S η ε α → Program (S.sum T) η ε α
  | _, .stop o => .stop o
  | _, .ask c k => .ask (.inl c) fun r => (k r).left
  | _, .iterate body b k => .iterate (fun b => (body b).left) b fun c => (k c).left

@[simp] theorem left_stop (o : Outcome η ε α) :
    (stop o : Program S η ε α).left (T := T) = stop o := by rw [left]

@[simp] theorem left_ask (c : S.Call) (k : S.Answer c → Program S η ε α) :
    (ask c k).left (T := T) = ask (S := S.sum T) (Sum.inl c) fun r => (k r).left := by rw [left]

@[simp] theorem left_iterate (body : β → Program S η ε (β ⊕ γ)) (b : β)
    (k : γ → Program S η ε α) :
    (iterate body b k).left (T := T) =
      iterate (fun b => (body b).left) b fun c => (k c).left := by rw [left]

variable {G : σ → (S.sum T).Call → Prop}

theorem wp_left {K : Kernel (S.sum T) σ} (p : Program S η ε α)
    (Q : Outcome η ε α → σ → Prop) (s : σ) :
    p.left.wp K G Q s ↔ p.wp K.left (fun s c => G s (.inl c)) Q s := by
  induction p generalizing s with
  | stop o => rw [left_stop, wp_stop, wp_stop]
  | ask c k ih =>
      rw [left_ask, wp_ask, wp_ask]
      exact and_congr_right fun _ => forall_congr' fun r => forall_congr' fun t =>
        imp_congr_right fun _ => ih r Q t
  | iterate body b k ihBody ihK =>
      rw [left_iterate, wp_iterate, wp_iterate]
      refine exists_congr fun I => and_congr_right fun _ => forall_congr' fun b =>
        forall_congr' fun s => imp_congr_right fun _ => ?_
      rw [ihBody]
      refine iff_of_eq (congrArg (fun post => (body b).wp _ _ post s) ?_)
      funext o t
      rcases o with (x | x) | e | h
      · rfl
      · exact propext (ihK x Q t)
      · rfl
      · rfl

theorem within_left {calls : (S.sum T).Call → Prop} {halts : η → Prop} {p : Program S η ε α}
    (h : p.Within (fun c => calls (.inl c)) halts) : p.left.Within calls halts := by
  induction p with
  | stop o =>
      rw [left_stop]
      cases o with
      | value a => trivial
      | error e => trivial
      | halted x => exact h
  | ask c k ih =>
      rw [left_ask]
      exact ⟨h.1, fun r => ih r (h.2 r)⟩
  | iterate body b k ihBody ihK =>
      rw [left_iterate]
      exact ⟨fun b => ihBody b (h.1 b), fun c => ihK c (h.2 c)⟩

end Program

end Cntr.CallTree
