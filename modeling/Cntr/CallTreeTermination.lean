import Cntr.CallTreeLogic

/-!
Termination of programs against a kernel: no run goes on for ever, neither
inside a loop's body nor from round to round.
-/

namespace Cntr.CallTree

variable {S : Signature} {η ε σ : Type} {α β γ : Type}

namespace Program

/-- From the head `y` of a loop the body leads to the head `x`. -/
def NextHead (K : Kernel S σ) (body : β → Program S η ε (β ⊕ γ)) (x y : β × σ) : Prop :=
  (body y.1).Runs K y.2 (.value (.inl x.1)) x.2

/-- Every run comes to an end. The heads of a loop must be accessible: there is no
endless sequence of rounds. -/
def Terminates (K : Kernel S σ) : {α : Type} → Program S η ε α → σ → Prop
  | _, .stop _, _ => True
  | _, .ask c k, s => ∀ r t, K s c r t → (k r).Terminates K t
  | _, .iterate body b k, s =>
      Acc (NextHead K body) (b, s) ∧ ∀ b' t, Rounds K body b s b' t →
        (body b').Terminates K t ∧
          ∀ c u, (body b').Runs K t (.value (.inr c)) u → (k c).Terminates K u

variable {K : Kernel S σ}

/-- A sequence terminates if and only if its first part does, and what follows
does from every end of the first part. -/
theorem terminates_bind (p : Program S η ε α) (f : α → Program S η ε β) (s : σ) :
    (p.bind f).Terminates K s ↔
      p.Terminates K s ∧ ∀ a t, p.Runs K s (.value a) t → (f a).Terminates K t := by
  induction p generalizing s with
  | stop o =>
      cases o with
      | value a =>
          refine ⟨fun h => ⟨trivial, fun a' t run => ?_⟩, fun h => h.2 a s (.stop _ _)⟩
          cases run
          exact h
      | error e => exact ⟨fun _ => ⟨trivial, fun a t run => by cases run⟩, fun _ => trivial⟩
      | halted h => exact ⟨fun _ => ⟨trivial, fun a t run => by cases run⟩, fun _ => trivial⟩
  | ask c k ih =>
      constructor
      · intro h
        refine ⟨fun r t answer => ((ih r f t).mp (h r t answer)).1, fun a t run => ?_⟩
        cases run with
        | ask answer rest => exact ((ih _ f _).mp (h _ _ answer)).2 a t rest
      · rintro ⟨hfirst, hrest⟩ r t answer
        refine (ih r f t).mpr ⟨hfirst r t answer, fun a u run => ?_⟩
        exact hrest a u (.ask answer run)
  | iterate body b k _ ih =>
      constructor
      · rintro ⟨hacc, hround⟩
        refine ⟨⟨hacc, fun b' t rounds => ?_⟩, fun a u run => ?_⟩
        · refine ⟨(hround b' t rounds).1, fun c u leave => ?_⟩
          exact ((ih c f u).mp ((hround b' t rounds).2 c u leave)).1
        · obtain ⟨b', t, c, v, rounds, leave, rest⟩ := run.of_iterate
          exact ((ih c f v).mp ((hround b' t rounds).2 c v leave)).2 a u rest
      · rintro ⟨⟨hacc, hround⟩, hrest⟩
        refine ⟨hacc, fun b' t rounds => ⟨(hround b' t rounds).1, fun c u leave => ?_⟩⟩
        refine (ih c f u).mpr ⟨(hround b' t rounds).2 c u leave, fun a v run => ?_⟩
        exact hrest a v (rounds.runs (.leave leave run))

theorem Terminates.bind {p : Program S η ε α} {f : α → Program S η ε β} {s : σ}
    (first : p.Terminates K s) (rest : ∀ a t, (f a).Terminates K t) :
    (p.bind f).Terminates K s :=
  (terminates_bind p f s).mpr ⟨first, fun a t _ => rest a t⟩

theorem Terminates.forEach {ι : Type} {body : ι → Program S η ε Unit}
    (hbody : ∀ x s, (body x).Terminates K s) (xs : List ι) (s : σ) :
    (forEach body xs).Terminates K s := by
  induction xs generalizing s with
  | nil => exact trivial
  | cons x xs ih => exact (hbody x s).bind fun _ t => ih t

/-- A loop terminates if its rounds do, keep an invariant and make a measure
smaller. -/
theorem Terminates.iterate {body : β → Program S η ε (β ⊕ γ)} {k : γ → Program S η ε α}
    (I : β → σ → Prop) (measure : β → σ → Nat)
    (hround : ∀ b s, I b s → (body b).Terminates K s ∧
      (body b).wp K (fun _ _ => True) (fun o => o.andThen
        (Sum.elim (fun b' t => I b' t ∧ measure b' t < measure b s)
          fun c t => (k c).Terminates K t) (fun (_ : Outcome η ε α) _ => True)) s)
    {b : β} {s : σ} (h : I b s) : (iterate body b k).Terminates K s := by
  have hacc : ∀ n b s, I b s → measure b s = n → Acc (NextHead K body) (b, s) := by
    intro n
    induction n using Nat.strongRecOn with
    | ind n ih =>
        intro b s hI hmeasure
        refine .intro _ ?_
        rintro ⟨b', t⟩ next
        obtain ⟨hI', hless⟩ := Runs.of_wp next (hround b s hI).2
        exact ih _ (hmeasure ▸ hless) b' t hI' rfl
  refine ⟨hacc _ b s h rfl, fun b' t rounds => ?_⟩
  have hI : I b' t := by
    refine rounds.invariant (G := fun _ _ => True) (fun b s hI => ?_) h
    refine wp_post (hround b s hI).2 fun o t ho b' heq => ?_
    subst heq
    exact ho.1
  obtain ⟨hbody, hpost⟩ := hround b' t hI
  exact ⟨hbody, fun c u leave => leave.of_wp hpost⟩

/-- A loop that has a next round from every state of an invariant does not
terminate. -/
theorem not_terminates_iterate {body : β → Program S η ε (β ⊕ γ)} {k : γ → Program S η ε α}
    (I : β → σ → Prop)
    (hround : ∀ b s, I b s → ∃ b' t, (body b).Runs K s (.value (.inl b')) t ∧ I b' t)
    {b : β} {s : σ} (h : I b s) : ¬(iterate body b k).Terminates K s := by
  rintro ⟨hacc, -⟩
  generalize hhead : (b, s) = head at hacc
  induction hacc generalizing b s with
  | intro head _ ih =>
      subst hhead
      obtain ⟨b', t, next, hI⟩ := hround b s h
      exact ih (b', t) next hI rfl

/-- A program that terminates has a run, if each of its calls can be answered. -/
theorem Terminates.exists_runs_of_wp {p : Program S η ε α} {Q : Outcome η ε α → σ → Prop} {s : σ}
    (h : p.Terminates K s) (hanswers : p.wp K (fun s c => ∃ r t, K s c r t) Q s) :
    ∃ o t, p.Runs K s o t ∧ Q o t := by
  have hruns : ∃ o t, p.Runs K s o t := by
    induction p generalizing s with
    | stop o => exact ⟨o, s, .stop o s⟩
    | ask c k ih =>
        obtain ⟨⟨r, t, answer⟩, hrest⟩ := hanswers
        obtain ⟨o, u, run⟩ := ih r (h r t answer) (hrest r t answer)
        exact ⟨o, u, .ask answer run⟩
    | iterate body b k ihBody ihK =>
        obtain ⟨hacc, hround⟩ := h
        obtain ⟨I, hinit, hbody⟩ := hanswers
        have hheads : ∀ head, Acc (NextHead K body) head →
            Rounds K body b s head.1 head.2 → I head.1 head.2 →
            ∃ o t, (Program.iterate body b k).Runs K s o t := by
          intro head hacc
          induction hacc with
          | intro head _ ih =>
              intro rounds hI
              obtain ⟨hends, hleave⟩ := hround _ _ rounds
              obtain ⟨o, t, first⟩ := ihBody head.1 hends (hbody _ _ hI)
              have hpost := first.of_wp (hbody _ _ hI)
              rcases o with (b' | c) | e | h
              · exact ih (b', t) first (.round rounds first) hpost
              · obtain ⟨o, u, rest⟩ := ihK c (hleave c t first) hpost
                exact ⟨o, u, rounds.runs (.leave first rest)⟩
              · exact ⟨.error e, t, rounds.runs (.loopError first)⟩
              · exact ⟨.halted h, t, rounds.runs (.loopHalted first)⟩
        exact hheads (b, s) hacc (.refl b s) hinit
  obtain ⟨o, t, run⟩ := hruns
  exact ⟨o, t, run, run.of_wp hanswers⟩

/-- Against a kernel that answers every call, a program that terminates has a run. -/
theorem Terminates.exists_runs (hK : ∀ s c, ∃ r t, K s c r t) {p : Program S η ε α} {s : σ}
    (h : p.Terminates K s) : ∃ o t, p.Runs K s o t := by
  have hanswers : p.wp K (fun s c => ∃ r t, K s c r t) (fun _ _ => True) s :=
    wp_of_runs (fun _ _ _ => trivial) fun c t _ => hK t c
  obtain ⟨o, t, run, -⟩ := h.exists_runs_of_wp hanswers
  exact ⟨o, t, run⟩

/-- Total correctness: whatever has happened so far, the next call can be answered, no run
goes on for ever, and every one ends in `Q`. -/
structure Ensures (K : Kernel S σ) (p : Program S η ε α) (Q : Outcome η ε α → σ → Prop)
    (s : σ) : Prop where
  terminates : p.Terminates K s
  ends : p.wp K (fun s c => ∃ r t, K s c r t) Q s

theorem Ensures.exists_runs {p : Program S η ε α} {Q : Outcome η ε α → σ → Prop} {s : σ}
    (h : p.Ensures K Q s) : ∃ o t, p.Runs K s o t ∧ Q o t :=
  h.terminates.exists_runs_of_wp h.ends

end Program

end Cntr.CallTree
