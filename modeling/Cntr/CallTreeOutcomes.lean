import Cntr.CallTreeFrames
import Cntr.CallTreeTermination

/-!
Programs that can end in one way only, and what is put around and after them.
-/

namespace Cntr.CallTree

variable {S : Signature} {η ε ε' σ : Type} {α β γ : Type}

def Outcome.ofExcept : Except ε α → Outcome η ε α
  | .ok a => .value a
  | .error e => .error e

namespace Program

variable {K : Kernel S σ}

/-- What a round of a loop under `attempt` ends with, the round itself did. -/
theorem Runs.of_attemptNext {body : Program S η ε (β ⊕ γ)} {s t : σ} {x : β ⊕ Except ε γ}
    (run : ((body.attempt : Program S η ε' _).bind fun r => .done (attemptNext r)).Runs K s
      (.value x) t) :
    ∃ r, attemptNext r = x ∧ body.Runs K s (Outcome.ofExcept r) t := by
  rcases run.of_bind with ⟨r, u, first, rest⟩ | ⟨e, h, -⟩ | ⟨h, hh, -⟩
  · cases rest with
    | stop =>
        obtain ⟨o, ho, round⟩ := first.of_attempt
        cases o with
        | value a =>
            cases ho
            exact ⟨.ok a, rfl, round⟩
        | error e =>
            cases ho
            exact ⟨.error e, rfl, round⟩
        | halted h => cases ho
  · cases h
  · cases hh

/-- A program that comes to an end does so when its errors are caught. -/
theorem Terminates.attempt {p : Program S η ε α} {s : σ} (h : p.Terminates K s) :
    (p.attempt : Program S η ε' (Except ε α)).Terminates K s := by
  induction p generalizing s with
  | stop o => cases o <;> trivial
  | ask c k ih => exact fun r t answer => ih r (h r t answer)
  | iterate body b k ihBody ihK =>
      obtain ⟨hacc, hround⟩ := h
      let caught := fun b =>
        ((body b).attempt : Program S η ε' _).bind fun r => .done (attemptNext r)
      have hnext : ∀ {b b' s t}, (caught b).Runs K s (.value (.inl b')) t →
          (body b).Runs K s (.value (.inl b')) t := by
        intro b b' s t run
        obtain ⟨r, hr, run⟩ := run.of_attemptNext
        rcases r with e | b' | c
        · cases hr
        · cases hr
          exact run
        · cases hr
      have hrounds : ∀ {b' t}, Rounds K caught b s b' t → Rounds K body b s b' t := by
        intro b' t rounds
        induction rounds with
        | refl => exact .refl _ _
        | round _ last ih => exact .round (ih hacc hround) (hnext last)
      have hcaught : Acc (NextHead K caught) (b, s) := Subrelation.accessible hnext hacc
      refine ⟨hcaught, fun b' t rounds => ?_⟩
      obtain ⟨hbody, hleave⟩ := hround b' t (hrounds rounds)
      refine ⟨(ihBody b' hbody).bind fun _ _ => trivial, fun c u leave => ?_⟩
      obtain ⟨r, hr, run⟩ := Runs.of_attemptNext leave
      rcases r with e | b' | c'
      · cases hr
        trivial
      · cases hr
      · cases hr
        exact ihK c' (hleave c' u run)

theorem Terminates.mapError {p : Program S η ε α} {f : ε → ε'} {s : σ}
    (h : p.Terminates K s) : (p.mapError f).Terminates K s :=
  h.attempt.bind fun r _ => by cases r <;> trivial

/-- Every run comes to an end, with this outcome in this state. -/
structure Settles (K : Kernel S σ) (p : Program S η ε α) (s : σ) (o : Outcome η ε α) (t : σ) :
    Prop where
  terminates : p.Terminates K s
  ends : p.wp K (fun _ _ => True) (fun o' t' => o' = o ∧ t' = t) s

section Settles

variable {p : Program S η ε α} {f : α → Program S η ε β} {s t u : σ}

theorem Settles.stop (o : Outcome η ε α) (s : σ) : (Program.stop o).Settles K s o s := by
  refine ⟨trivial, ?_⟩
  cases o <;> exact ⟨rfl, rfl⟩

theorem Settles.ofExcept (g : ε → ε') (r : Except ε α) (s : σ) :
    (Program.ofExcept g r : Program S η ε' α).Settles K s
      ((Outcome.ofExcept r : Outcome η ε α).mapError g) s := by
  cases r with
  | ok a => exact .stop (.value a) s
  | error e => exact .stop (.error (g e)) s

theorem Settles.bind {a : α} {o : Outcome η ε β} (first : p.Settles K s (.value a) t)
    (rest : (f a).Settles K t o u) : (p.bind f).Settles K s o u := by
  constructor
  · refine (terminates_bind p f s).mpr ⟨first.terminates, fun a' t' run => ?_⟩
    obtain ⟨ha, rfl⟩ := run.of_wp first.ends
    cases ha
    exact rest.terminates
  · refine wp_seq first.ends fun o t' ho => ?_
    obtain ⟨rfl, rfl⟩ := ho
    exact rest.ends

theorem Settles.bind_error {e : ε} (first : p.Settles K s (.error e) t) :
    (p.bind f).Settles K s (.error e) t := by
  constructor
  · refine (terminates_bind p f s).mpr ⟨first.terminates, fun a t' run => ?_⟩
    obtain ⟨ha, -⟩ := run.of_wp first.ends
    cases ha
  · refine wp_seq first.ends fun o t' ho => ?_
    obtain ⟨rfl, rfl⟩ := ho
    exact ⟨rfl, rfl⟩

theorem Settles.attempt {o : Outcome η ε α} (h : p.Settles K s o t) :
    (p.attempt : Program S η ε' _).Settles K s o.attempt t := by
  refine ⟨h.terminates.attempt, (wp_attempt _ _ _).mpr (wp_post h.ends fun o' t' ho => ?_)⟩
  obtain ⟨rfl, rfl⟩ := ho
  exact ⟨rfl, rfl⟩

theorem Settles.mapError {g : ε → ε'} {o : Outcome η ε α} (h : p.Settles K s o t) :
    (p.mapError g).Settles K s (o.mapError g) t := by
  refine ⟨h.terminates.mapError, (wp_mapError _ _ _ _).mpr (wp_post h.ends fun o' t' ho => ?_)⟩
  obtain ⟨rfl, rfl⟩ := ho
  exact ⟨rfl, rfl⟩

/-- Where every call is answered, there is such a run. -/
theorem Settles.runs {o : Outcome η ε α} (h : p.Settles K s o t)
    (hK : ∀ s c, ∃ r t, K s c r t) : p.Runs K s o t := by
  obtain ⟨o', t', run⟩ := h.terminates.exists_runs hK
  obtain ⟨rfl, rfl⟩ := run.of_wp h.ends
  exact run

theorem Settles.runs_iff {o o' : Outcome η ε α} (h : p.Settles K s o t)
    (hK : ∀ s c, ∃ r t, K s c r t) : p.Runs K s o' u ↔ o' = o ∧ u = t := by
  constructor
  · exact fun run => run.of_wp h.ends
  · rintro ⟨rfl, rfl⟩
    exact h.runs hK

end Settles

end Program

end Cntr.CallTree
