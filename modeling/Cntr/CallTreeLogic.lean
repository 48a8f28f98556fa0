import Cntr.CallTree

/-!
Runs of programs against a kernel that answers their calls, and the weakest
precondition calculus for them. A precondition also constrains every call the
program makes on the way, so that an assertion about the moment of a call is
proved along with the one about the end of the run.
-/

namespace Cntr.CallTree

variable {S : Signature} {η ε ε' σ : Type} {α β γ : Type}

/-- The answers a call may get in a state, each with the state after it. -/
abbrev Kernel (S : Signature) (σ : Type) : Type :=
  σ → (c : S.Call) → S.Answer c → σ → Prop

/-- A call together with the answer it got. -/
abbrev Event (S : Signature) : Type := (c : S.Call) × S.Answer c

/-- The kernel that may give any answer and remembers, oldest first, the ones
it gave. -/
def tracing (S : Signature) : Kernel S (List (Event S)) :=
  fun log c r log' => log' = log ++ [⟨c, r⟩]

namespace Program

/-- A complete run of a program from one kernel state to another. -/
inductive Runs (K : Kernel S σ) :
    {α : Type} → Program S η ε α → σ → Outcome η ε α → σ → Prop where
  | stop {α : Type} (o : Outcome η ε α) (s : σ) : Runs K (.stop o) s o s
  | ask {α : Type} {c : S.Call} {k : S.Answer c → Program S η ε α} {r : S.Answer c}
      {o : Outcome η ε α} {s t u : σ} (answer : K s c r t) (rest : Runs K (k r) t o u) :
      Runs K (.ask c k) s o u
  | again {α β γ : Type} {body : β → Program S η ε (β ⊕ γ)} {b b' : β}
      {k : γ → Program S η ε α} {o : Outcome η ε α} {s t u : σ}
      (first : Runs K (body b) s (.value (.inl b')) t)
      (rest : Runs K (.iterate body b' k) t o u) : Runs K (.iterate body b k) s o u
  | leave {α β γ : Type} {body : β → Program S η ε (β ⊕ γ)} {b : β} {c : γ}
      {k : γ → Program S η ε α} {o : Outcome η ε α} {s t u : σ}
      (first : Runs K (body b) s (.value (.inr c)) t)
      (rest : Runs K (k c) t o u) : Runs K (.iterate body b k) s o u
  | loopError {α β γ : Type} {body : β → Program S η ε (β ⊕ γ)} {b : β} {e : ε}
      {k : γ → Program S η ε α} {s t : σ} (first : Runs K (body b) s (.error e) t) :
      Runs K (.iterate body b k) s (.error e) t
  | loopHalted {α β γ : Type} {body : β → Program S η ε (β ⊕ γ)} {b : β} {h : η}
      {k : γ → Program S η ε α} {s t : σ} (first : Runs K (body b) s (.halted h) t) :
      Runs K (.iterate body b k) s (.halted h) t

/-- `p.Issues K s c t`: started in `s`, the program comes to make the call `c`
in the kernel state `t`. The run need not have an end. -/
inductive Issues (K : Kernel S σ) :
    {α : Type} → Program S η ε α → σ → S.Call → σ → Prop where
  | here {α : Type} {c : S.Call} {k : S.Answer c → Program S η ε α} (s : σ) :
      Issues K (.ask c k) s c s
  | later {α : Type} {c d : S.Call} {k : S.Answer c → Program S η ε α} {r : S.Answer c}
      {s t u : σ} (answer : K s c r t) (rest : Issues K (k r) t d u) :
      Issues K (.ask c k) s d u
  | body {α β γ : Type} {body : β → Program S η ε (β ⊕ γ)} {b : β}
      {k : γ → Program S η ε α} {d : S.Call} {s t : σ} (first : Issues K (body b) s d t) :
      Issues K (.iterate body b k) s d t
  | again {α β γ : Type} {body : β → Program S η ε (β ⊕ γ)} {b b' : β}
      {k : γ → Program S η ε α} {d : S.Call} {s t u : σ}
      (first : Runs K (body b) s (.value (.inl b')) t)
      (rest : Issues K (.iterate body b' k) t d u) : Issues K (.iterate body b k) s d u
  | leave {α β γ : Type} {body : β → Program S η ε (β ⊕ γ)} {b : β} {c : γ}
      {k : γ → Program S η ε α} {d : S.Call} {s t u : σ}
      (first : Runs K (body b) s (.value (.inr c)) t)
      (rest : Issues K (k c) t d u) : Issues K (.iterate body b k) s d u

/-- The heads of a loop: `(b', t)` is reached from `(b, s)` by some number of
complete rounds of the body after which the loop goes on. -/
inductive Rounds (K : Kernel S σ) (body : β → Program S η ε (β ⊕ γ)) :
    β → σ → β → σ → Prop where
  | refl (b : β) (s : σ) : Rounds K body b s b s
  | round {b b' b'' : β} {s t u : σ} (init : Rounds K body b s b' t)
      (last : Runs K (body b') t (.value (.inl b'')) u) : Rounds K body b s b'' u

end Program

/-- The outcome of `attempt p` for an outcome of `p`. -/
def Outcome.attempt : Outcome η ε α → Outcome η ε' (Except ε α)
  | .value a => .value (.ok a)
  | .error e => .value (.error e)
  | .halted h => .halted h

def Outcome.isValue : Outcome η ε α → Bool
  | .value _ => true
  | _ => false

/-- What is left to show of an outcome when a value is handed on to `next` and
every other outcome is final. -/
def Outcome.andThen (o : Outcome η ε α) (next : α → σ → Prop)
    (post : Outcome η ε β → σ → Prop) : σ → Prop :=
  match o with
  | .value a => next a
  | .error e => post (.error e)
  | .halted h => post (.halted h)

@[simp] theorem Outcome.andThen_value (a : α) (next : α → σ → Prop)
    (post : Outcome η ε β → σ → Prop) :
    (Outcome.value a : Outcome η ε α).andThen next post = next a := rfl

@[simp] theorem Outcome.andThen_error (e : ε) (next : α → σ → Prop)
    (post : Outcome η ε β → σ → Prop) :
    (Outcome.error e : Outcome η ε α).andThen next post = post (.error e) := rfl

@[simp] theorem Outcome.andThen_halted (h : η) (next : α → σ → Prop)
    (post : Outcome η ε β → σ → Prop) :
    (Outcome.halted h : Outcome η ε α).andThen next post = post (.halted h) := rfl

theorem Outcome.andThen_mono {o : Outcome η ε α} {next next' : α → σ → Prop}
    {post post' : Outcome η ε β → σ → Prop} (hnext : ∀ a s, next a s → next' a s)
    (hpost : ∀ o s, post o s → post' o s) {s : σ} (h : o.andThen next post s) :
    o.andThen next' post' s := by
  cases o with
  | value a => exact hnext a s h
  | error e => exact hpost _ s h
  | halted e => exact hpost _ s h

namespace Program

variable {K : Kernel S σ} {G : σ → S.Call → Prop}

/-- Weakest precondition: every call is made in a state where `G` allows it, and
the outcome of every run satisfies `Q`. A loop may choose its invariant. -/
def wp (K : Kernel S σ) (G : σ → S.Call → Prop) :
    {α : Type} → Program S η ε α → (Outcome η ε α → σ → Prop) → σ → Prop
  | _, .stop o, Q => Q o
  | _, .ask c k, Q => fun s => G s c ∧ ∀ r t, K s c r t → (k r).wp K G Q t
  | _, .iterate body b k, Q => fun s =>
      ∃ I : _ → σ → Prop, I b s ∧ ∀ b s, I b s →
        (body b).wp K G (fun o => o.andThen (Sum.elim I fun c => (k c).wp K G Q) Q) s

@[simp] theorem wp_stop (o : Outcome η ε α) (Q : Outcome η ε α → σ → Prop) (s : σ) :
    (stop o).wp K G Q s ↔ Q o s := Iff.rfl

@[simp] theorem wp_ask (c : S.Call) (k : S.Answer c → Program S η ε α)
    (Q : Outcome η ε α → σ → Prop) (s : σ) :
    (ask c k).wp K G Q s ↔ G s c ∧ ∀ r t, K s c r t → (k r).wp K G Q t := Iff.rfl

theorem wp_call_bind (c : S.Call) (f : S.Answer c → Program S η ε α)
    (Q : Outcome η ε α → σ → Prop) (s : σ) :
    (@bind S η ε (no_index (S.Answer c)) α (call c) f).wp K G Q s ↔
      G s c ∧ ∀ r t, K s c r t → (f r).wp K G Q t := Iff.rfl

theorem wp_call_tracing {G : List (Event S) → S.Call → Prop} (c : S.Call)
    (f : S.Answer c → Program S η ε α) (Q : Outcome η ε α → List (Event S) → Prop)
    (log : List (Event S)) :
    (@bind S η ε (no_index (S.Answer c)) α (call c) f).wp (tracing S) G Q log ↔
      G log c ∧ ∀ r, (f r).wp (tracing S) G Q (log ++ [⟨c, r⟩]) := by
  simp [tracing]

theorem wp_iterate (body : β → Program S η ε (β ⊕ γ)) (b : β)
    (k : γ → Program S η ε α) (Q : Outcome η ε α → σ → Prop) (s : σ) :
    (iterate body b k).wp K G Q s ↔
      ∃ I : β → σ → Prop, I b s ∧ ∀ b s, I b s →
        (body b).wp K G (fun o => o.andThen (Sum.elim I fun c => (k c).wp K G Q) Q) s :=
  Iff.rfl

theorem wp_mono {G' : σ → S.Call → Prop} (hG : ∀ s c, G s c → G' s c)
    (p : Program S η ε α) {Q Q' : Outcome η ε α → σ → Prop}
    (hQ : ∀ o s, Q o s → Q' o s) {s : σ} (h : p.wp K G Q s) : p.wp K G' Q' s := by
  induction p generalizing s with
  | stop o => exact hQ o s h
  | ask c k ih => exact ⟨hG s c h.1, fun r t hr => ih r hQ (h.2 r t hr)⟩
  | iterate body b k ihBody ihK =>
      obtain ⟨I, hinit, hbody⟩ := h
      refine ⟨I, hinit, fun b s hI => ihBody b (fun o s ho => ?_) (hbody b s hI)⟩
      refine Outcome.andThen_mono (fun x s hx => ?_) hQ ho
      cases x with
      | inl b => exact hx
      | inr c => exact ihK c hQ hx

theorem wp_bind (p : Program S η ε α) (f : α → Program S η ε β)
    (Q : Outcome η ε β → σ → Prop) (s : σ) :
    (p.bind f).wp K G Q s ↔
      p.wp K G (fun o => o.andThen (fun a => (f a).wp K G Q) Q) s := by
  induction p generalizing s with
  | stop o => cases o <;> rfl
  | ask c k ih =>
      exact and_congr_right fun _ => forall_congr' fun r => forall_congr' fun t =>
        imp_congr_right fun _ => ih r f t
  | iterate body b k ihBody ihK =>
      refine exists_congr fun I => and_congr_right fun _ => forall_congr' fun b =>
        forall_congr' fun s => imp_congr_right fun _ => ?_
      have hpost : (fun (o : Outcome η ε _) => o.andThen
            (Sum.elim I fun c => ((k c).bind f).wp K G Q) Q) =
          fun o => o.andThen (Sum.elim I fun c => (k c).wp K G
            (fun o => o.andThen (fun a => (f a).wp K G Q) Q))
            (fun o => o.andThen (fun a => (f a).wp K G Q) Q) := by
        funext o t
        rcases o with (x | x) | e | h
        · rfl
        · exact propext (ihK x f t)
        · rfl
        · rfl
      rw [hpost]

/-- The rule of consequence. -/
theorem wp_post {p : Program S η ε α} {Q Q' : Outcome η ε α → σ → Prop} {s : σ}
    (h : p.wp K G Q s) (hQ : ∀ o t, Q o t → Q' o t) : p.wp K G Q' s :=
  wp_mono (fun _ _ hG => hG) p hQ h

/-- The rule for a sequence. -/
theorem wp_seq {p : Program S η ε α} {f : α → Program S η ε β} {R : Outcome η ε α → σ → Prop}
    {Q : Outcome η ε β → σ → Prop} {s : σ} (first : p.wp K G R s)
    (rest : ∀ o t, R o t → o.andThen (fun a => (f a).wp K G Q) Q t) :
    (p.bind f).wp K G Q s :=
  (wp_bind p f Q s).mpr (wp_post first rest)

/-- A program that leaves the state as it is, in front of another one. -/
theorem wp_bind_same {p : Program S η ε α} {f : α → Program S η ε β}
    {Q : Outcome η ε β → σ → Prop} {s : σ} (first : p.wp K G (fun _ t => t = s) s)
    (fails : ∀ o, (∀ b, o ≠ .value b) → Q o s) (rest : ∀ a, (f a).wp K G Q s) :
    (p.bind f).wp K G Q s := by
  refine wp_seq first fun o t ho => ?_
  obtain rfl : t = s := ho
  cases o with
  | value a => exact rest a
  | error e => exact fails _ fun b heq => by cases heq
  | halted h => exact fails _ fun b heq => by cases heq

/-- Every complete run ends as the precondition promises. -/
theorem Runs.of_wp {p : Program S η ε α} {Q : Outcome η ε α → σ → Prop} {s t : σ}
    {o : Outcome η ε α} (run : p.Runs K s o t) (h : p.wp K G Q s) : Q o t := by
  induction run with
  | stop o s => exact h
  | ask answer _ ih => exact ih (h.2 _ _ answer)
  | again _ _ ihFirst ihRest =>
      obtain ⟨I, hinit, hbody⟩ := h
      exact ihRest ⟨I, ihFirst (hbody _ _ hinit), hbody⟩
  | leave _ _ ihFirst ihRest =>
      obtain ⟨I, hinit, hbody⟩ := h
      exact ihRest (ihFirst (hbody _ _ hinit))
  | loopError _ ih =>
      obtain ⟨I, hinit, hbody⟩ := h
      exact ih (hbody _ _ hinit)
  | loopHalted _ ih =>
      obtain ⟨I, hinit, hbody⟩ := h
      exact ih (hbody _ _ hinit)

theorem Runs.invariant {I : σ → Prop} (hcall : ∀ s c r t, K s c r t → I s → I t)
    {p : Program S η ε α} {s t : σ} {o : Outcome η ε α} (run : p.Runs K s o t) (h : I s) :
    I t := by
  induction run with
  | stop => exact h
  | ask answer _ ih => exact ih (hcall _ _ _ _ answer h)
  | again _ _ ihFirst ihRest => exact ihRest (ihFirst h)
  | leave _ _ ihFirst ihRest => exact ihRest (ihFirst h)
  | loopError _ ih => exact ih h
  | loopHalted _ ih => exact ih h

theorem Runs.log_prefix {p : Program S η ε α} {log log' : List (Event S)} {o : Outcome η ε α}
    (run : p.Runs (tracing S) log o log') : log <+: log' := by
  refine run.invariant (I := fun log' => log <+: log') (fun log₁ c r log₂ hcall h => ?_)
    (List.prefix_refl log)
  have hlog : log₂ = log₁ ++ [(⟨c, r⟩ : Event S)] := hcall
  rw [hlog]
  exact h.trans (List.prefix_append _ _)

theorem Issues.of_wp {p : Program S η ε α} {Q : Outcome η ε α → σ → Prop} {s t : σ}
    {c : S.Call} (issue : p.Issues K s c t) (h : p.wp K G Q s) : G t c := by
  induction issue with
  | here s => exact h.1
  | later answer _ ih => exact ih (h.2 _ _ answer)
  | body _ ih =>
      obtain ⟨I, hinit, hbody⟩ := h
      exact ih (hbody _ _ hinit)
  | again first _ ih =>
      obtain ⟨I, hinit, hbody⟩ := h
      exact ih ⟨I, first.of_wp (hbody _ _ hinit), hbody⟩
  | leave first _ ih =>
      obtain ⟨I, hinit, hbody⟩ := h
      exact ih (first.of_wp (hbody _ _ hinit))

theorem Rounds.runs {body : β → Program S η ε (β ⊕ γ)} {b b' : β} {s t u : σ}
    (rounds : Rounds K body b s b' t) {k : γ → Program S η ε α} {o : Outcome η ε α}
    (run : (iterate body b' k).Runs K t o u) : (iterate body b k).Runs K s o u := by
  induction rounds with
  | refl => exact run
  | round _ last ih => exact ih (.again last run)

theorem Rounds.issues {body : β → Program S η ε (β ⊕ γ)} {b b' : β} {s t u : σ}
    (rounds : Rounds K body b s b' t) {k : γ → Program S η ε α} {c : S.Call}
    (issue : (iterate body b' k).Issues K t c u) : (iterate body b k).Issues K s c u := by
  induction rounds with
  | refl => exact issue
  | round _ last ih => exact ih (.again last issue)

/-- The weakest precondition asks for no more than all runs and calls give; the
invariant of a loop is that its head was reached. -/
theorem wp_of_runs {p : Program S η ε α} {Q : Outcome η ε α → σ → Prop} {s : σ}
    (hruns : ∀ o t, p.Runs K s o t → Q o t) (hissues : ∀ c t, p.Issues K s c t → G t c) :
    p.wp K G Q s := by
  induction p generalizing s with
  | stop o => exact hruns o s (.stop o s)
  | ask c k ih =>
      refine ⟨hissues c s (.here s), fun r t answer => ?_⟩
      apply ih r
      · intro o u run
        exact hruns o u (.ask answer run)
      · intro d u issue
        exact hissues d u (.later answer issue)
  | iterate body b k ihBody ihK =>
      refine ⟨fun b' t => Rounds K body b s b' t, .refl b s, fun b' t rounds => ?_⟩
      apply ihBody b'
      · intro o u run
        rcases o with (b'' | c) | e | h
        · exact .round rounds run
        · apply ihK c
          · intro o v rest
            exact hruns o v (rounds.runs (.leave run rest))
          · intro d v issue
            exact hissues d v (rounds.issues (.leave run issue))
        · exact hruns _ u (rounds.runs (.loopError run))
        · exact hruns _ u (rounds.runs (.loopHalted run))
      · intro d u issue
        exact hissues d u (rounds.issues (.body issue))

theorem Rounds.invariant {body : β → Program S η ε (β ⊕ γ)} {I : β → σ → Prop}
    (hround : ∀ b s, I b s →
      (body b).wp K G (fun o t => ∀ b', o = .value (.inl b') → I b' t) s)
    {b b' : β} {s t : σ} (rounds : Rounds K body b s b' t) (hinit : I b s) : I b' t := by
  induction rounds with
  | refl => exact hinit
  | round _ last ih => exact last.of_wp (hround _ _ (ih hinit)) _ rfl

theorem wp_attempt (p : Program S η ε α) (Q : Outcome η ε' (Except ε α) → σ → Prop)
    (s : σ) :
    (p.attempt).wp K G Q s ↔ p.wp K G (fun o => Q o.attempt) s := by
  induction p generalizing s with
  | stop o => cases o <;> rfl
  | ask c k ih =>
      exact and_congr_right fun _ => forall_congr' fun r => forall_congr' fun t =>
        imp_congr_right fun _ => ih r Q t
  | iterate body b k ihBody ihK =>
      rw [attempt, wp_iterate, wp_iterate]
      refine exists_congr fun I => and_congr_right fun _ => forall_congr' fun b =>
        forall_congr' fun s => imp_congr_right fun _ => ?_
      rw [wp_bind, ihBody]
      refine iff_of_eq (congrArg (fun post => (body b).wp K G post s) ?_)
      funext o t
      rcases o with (x | x) | e | h
      · rfl
      · exact propext (ihK x Q t)
      · rfl
      · rfl

/-- A run of a sequence ends in its first part, or is two runs in a row. -/
theorem Runs.of_bind {p : Program S η ε α} {f : α → Program S η ε β} {s u : σ}
    {o : Outcome η ε β} (run : (p.bind f).Runs K s o u) :
    (∃ a t, p.Runs K s (.value a) t ∧ (f a).Runs K t o u) ∨
    (∃ e, o = .error e ∧ p.Runs K s (.error e) u) ∨
    (∃ h, o = .halted h ∧ p.Runs K s (.halted h) u) := by
  refine run.of_wp (G := fun _ _ => True)
    (Q := fun o u => (∃ a t, p.Runs K s (.value a) t ∧ (f a).Runs K t o u) ∨
      (∃ e, o = .error e ∧ p.Runs K s (.error e) u) ∨
      (∃ h, o = .halted h ∧ p.Runs K s (.halted h) u)) ?_
  rw [wp_bind]
  refine wp_of_runs (fun o t first => ?_) fun _ _ _ => trivial
  cases o with
  | value a =>
      exact wp_of_runs (fun o u rest => .inl ⟨a, t, first, rest⟩) fun _ _ _ => trivial
  | error e => exact .inr (.inl ⟨e, rfl, first⟩)
  | halted h => exact .inr (.inr ⟨h, rfl, first⟩)

theorem Runs.call (c : S.Call) (r : S.Answer c) {f : S.Answer c → Program S η ε α}
    {log log' : List (Event S)} {o : Outcome η ε α}
    (rest : (f r).Runs (tracing S) (log ++ [⟨c, r⟩]) o log') :
    ((Program.call c).bind f).Runs (tracing S) log o log' := by
  have answer : tracing S log c r (log ++ [⟨c, r⟩]) := rfl
  exact .ask answer rest

theorem Runs.bind {p : Program S η ε α} {f : α → Program S η ε β} {s t u : σ} {a : α}
    {o : Outcome η ε β} (first : p.Runs K s (.value a) t) (rest : (f a).Runs K t o u) :
    (p.bind f).Runs K s o u := by
  generalize hvalue : Outcome.value a = before at first
  induction first with
  | stop =>
      subst hvalue
      exact rest
  | ask answer _ ih => exact .ask answer (ih rest hvalue)
  | again round _ _ ih => exact .again round (ih rest hvalue)
  | leave round _ _ ih => exact .leave round (ih rest hvalue)
  | loopError => cases hvalue
  | loopHalted => cases hvalue

/-- A loop that is left with a value was left at one of its heads. -/
theorem Runs.of_iterate {body : β → Program S η ε (β ⊕ γ)} {k : γ → Program S η ε α} {b : β}
    {s u : σ} {a : α} (run : (iterate body b k).Runs K s (.value a) u) :
    ∃ b' t c v, Rounds K body b s b' t ∧ (body b').Runs K t (.value (.inr c)) v ∧
      (k c).Runs K v (.value a) u := by
  refine run.of_wp (G := fun _ _ => True) (Q := fun o u => ∀ a, o = .value a →
    ∃ b' t c v, Rounds K body b s b' t ∧ (body b').Runs K t (.value (.inr c)) v ∧
      (k c).Runs K v (.value a) u) ?_ a rfl
  refine ⟨fun b' t => Rounds K body b s b' t, .refl b s, fun b' t rounds => ?_⟩
  refine wp_of_runs (fun o v first => ?_) fun _ _ _ => trivial
  rcases o with (b'' | c) | e | h
  · exact .round rounds first
  · refine wp_of_runs (fun o u rest a ho => ?_) fun _ _ _ => trivial
    subst ho
    exact ⟨b', t, c, v, rounds, first, rest⟩
  · exact fun a ho => by cases ho
  · exact fun a ho => by cases ho

/-- The calls of a sequence are those of its first part, and those of what follows. -/
theorem issues_bind_iff {p : Program S η ε α} {f : α → Program S η ε β} {s u : σ} {c : S.Call} :
    (p.bind f).Issues K s c u ↔
      p.Issues K s c u ∨ ∃ a t, p.Runs K s (.value a) t ∧ (f a).Issues K t c u := by
  constructor
  · intro issue
    refine issue.of_wp (G := fun u c => p.Issues K s c u ∨
      ∃ a t, p.Runs K s (.value a) t ∧ (f a).Issues K t c u) (Q := fun _ _ => True) ?_
    rw [wp_bind]
    refine wp_of_runs (fun o t first => ?_) fun c t first => .inl first
    cases o with
    | value a => exact wp_of_runs (fun _ _ _ => trivial) fun c u rest => .inr ⟨a, t, first, rest⟩
    | error e => trivial
    | halted h => trivial
  · rintro (first | ⟨a, t, first, rest⟩)
    · induction first with
      | here s => exact .here s
      | later answer _ ih => exact .later answer ih
      | body first => exact .body first
      | again first _ ih => exact .again first ih
      | leave first _ ih => exact .leave first ih
    · generalize hvalue : Outcome.value a = before at first
      induction first with
      | stop =>
          subst hvalue
          exact rest
      | ask answer _ ih => exact .later answer (ih _ rest hvalue)
      | again round _ _ ih => exact .again round (ih _ rest hvalue)
      | leave round _ _ ih => exact .leave round (ih _ rest hvalue)
      | loopError => cases hvalue
      | loopHalted => cases hvalue

/-- The calls of a loop are those of rounds from its heads, and those of what follows. -/
theorem issues_iterate_iff {body : β → Program S η ε (β ⊕ γ)} {k : γ → Program S η ε α} {b : β}
    {s u : σ} {d : S.Call} :
    (iterate body b k).Issues K s d u ↔ ∃ b' t, Rounds K body b s b' t ∧
      ((body b').Issues K t d u ∨
        ∃ c v, (body b').Runs K t (.value (.inr c)) v ∧ (k c).Issues K v d u) := by
  constructor
  · intro issue
    refine issue.of_wp (G := fun u d => ∃ b' t, Rounds K body b s b' t ∧
      ((body b').Issues K t d u ∨
        ∃ c v, (body b').Runs K t (.value (.inr c)) v ∧ (k c).Issues K v d u))
      (Q := fun _ _ => True) ?_
    refine ⟨fun b' t => Rounds K body b s b' t, .refl b s, fun b' t rounds => ?_⟩
    refine wp_of_runs (fun o v first => ?_) fun d u issue => ⟨b', t, rounds, .inl issue⟩
    rcases o with (b'' | c) | e | h
    · exact .round rounds first
    · exact wp_of_runs (fun _ _ _ => trivial) fun d u rest =>
        ⟨b', t, rounds, .inr ⟨c, v, first, rest⟩⟩
    · trivial
    · trivial
  · rintro ⟨b', t, rounds, issue | ⟨c, v, first, rest⟩⟩
    · exact rounds.issues (.body issue)
    · exact rounds.issues (.leave first rest)

/-- What follows is not run unless there is a value. -/
theorem Runs.bind_ended {p : Program S η ε α} {f : α → Program S η ε β} {s t : σ}
    {o : Outcome η ε α} {o' : Outcome η ε β} (first : p.Runs K s o t)
    (ended : o.andThen (fun _ _ => False) (fun e _ => e = o') t) : (p.bind f).Runs K s o' t := by
  induction first with
  | stop o =>
      cases o with
      | value a => exact ended.elim
      | error e =>
          obtain rfl : .error e = o' := ended
          exact .stop _ _
      | halted h =>
          obtain rfl : .halted h = o' := ended
          exact .stop _ _
  | ask answer _ ih => exact .ask answer (ih ended)
  | again round _ _ ih => exact .again round (ih ended)
  | leave round _ _ ih => exact .leave round (ih ended)
  | loopError round =>
      obtain rfl : .error _ = o' := ended
      exact .loopError round
  | loopHalted round =>
      obtain rfl : .halted _ = o' := ended
      exact .loopHalted round

theorem Runs.bind_error {p : Program S η ε α} {f : α → Program S η ε β} {s t : σ} {e : ε}
    (first : p.Runs K s (.error e) t) : (p.bind f).Runs K s (.error e) t :=
  first.bind_ended rfl

theorem Runs.bind_halted {p : Program S η ε α} {f : α → Program S η ε β} {s t : σ} {h : η}
    (first : p.Runs K s (.halted h) t) : (p.bind f).Runs K s (.halted h) t :=
  first.bind_ended rfl

theorem Runs.of_attempt {p : Program S η ε α} {s t : σ} {o : Outcome η ε' (Except ε α)}
    (run : (p.attempt).Runs K s o t) : ∃ o', o'.attempt = o ∧ p.Runs K s o' t := by
  refine run.of_wp (G := fun _ _ => True)
    (Q := fun o t => ∃ o', o'.attempt = o ∧ p.Runs K s o' t) ?_
  rw [wp_attempt]
  exact wp_of_runs (fun o' t run => ⟨o', rfl, run⟩) fun _ _ _ => trivial

/-- A list is processed under an assertion about the elements still to come. -/
theorem wp_forEach {ι : Type} {body : ι → Program S η ε Unit} (I : List ι → σ → Prop)
    {Q : Outcome η ε Unit → σ → Prop}
    (hbody : ∀ x xs s, I (x :: xs) s →
      (body x).wp K G (fun o => o.andThen (fun _ => I xs) Q) s)
    (hend : ∀ s, I [] s → Q (.value ()) s) {xs : List ι} {s : σ} (h : I xs s) :
    (forEach body xs).wp K G Q s := by
  induction xs generalizing s with
  | nil => exact hend s h
  | cons x xs ih =>
      rw [forEach, wp_bind]
      exact wp_mono (fun _ _ hG => hG) _ (fun o t ho =>
        Outcome.andThen_mono (fun _ _ => ih) (fun _ _ hQ => hQ) ho) (hbody x xs s h)

/-- Play at most `fuel` rounds of a loop whose body plays as `round`. -/
def playRounds (round : β → σ → Option (Outcome η ε (β ⊕ γ) × σ)) :
    Nat → β → σ → Option (Outcome η ε γ × σ)
  | 0, _, _ => none
  | fuel + 1, b, s =>
      match round b s with
      | none => none
      | some (.value (.inl b'), t) => playRounds round fuel b' t
      | some (.value (.inr c), t) => some (.value c, t)
      | some (.error e, t) => some (.error e, t)
      | some (.halted h, t) => some (.halted h, t)

/-- Play a program against a deterministic kernel, with at most `fuel` rounds
of each loop. -/
def play (answer : σ → (c : S.Call) → S.Answer c × σ) (fuel : Nat) :
    {α : Type} → Program S η ε α → σ → Option (Outcome η ε α × σ)
  | _, .stop o, s => some (o, s)
  | _, .ask c k, s => (k (answer s c).1).play answer fuel (answer s c).2
  | _, .iterate body b k, s =>
      match playRounds (fun b s => (body b).play answer fuel s) fuel b s with
      | none => none
      | some (.value c, t) => (k c).play answer fuel t
      | some (.error e, t) => some (.error e, t)
      | some (.halted h, t) => some (.halted h, t)

theorem Runs.of_playRounds {body : β → Program S η ε (β ⊕ γ)}
    {round : β → σ → Option (Outcome η ε (β ⊕ γ) × σ)}
    (hround : ∀ b s o t, round b s = some (o, t) → (body b).Runs K s o t)
    {k : γ → Program S η ε α} {fuel : Nat} {b : β} {s t u : σ} {o : Outcome η ε γ}
    {o' : Outcome η ε α} (h : playRounds round fuel b s = some (o, t))
    (hvalue : ∀ c, o = .value c → (k c).Runs K t o' u)
    (herror : ∀ e, o = .error e → o' = .error e ∧ u = t)
    (hhalted : ∀ h, o = .halted h → o' = .halted h ∧ u = t) :
    (iterate body b k).Runs K s o' u := by
  induction fuel generalizing b s with
  | zero => simp [playRounds] at h
  | succ fuel ih =>
      rw [playRounds] at h
      split at h
      · simp at h
      · next b' t' hfirst => exact .again (hround _ _ _ _ hfirst) (ih h)
      · next c t' hfirst =>
          obtain ⟨rfl, rfl⟩ : Outcome.value c = o ∧ t' = t := by simpa using h
          exact .leave (hround _ _ _ _ hfirst) (hvalue c rfl)
      · next e t' hfirst =>
          obtain ⟨rfl, rfl⟩ : Outcome.error e = o ∧ t' = t := by simpa using h
          obtain ⟨rfl, rfl⟩ := herror e rfl
          exact .loopError (hround _ _ _ _ hfirst)
      · next e t' hfirst =>
          obtain ⟨rfl, rfl⟩ : Outcome.halted e = o ∧ t' = t := by simpa using h
          obtain ⟨rfl, rfl⟩ := hhalted e rfl
          exact .loopHalted (hround _ _ _ _ hfirst)

theorem Runs.of_play {answer : σ → (c : S.Call) → S.Answer c × σ}
    (hK : ∀ s c, K s c (answer s c).1 (answer s c).2) {fuel : Nat}
    {p : Program S η ε α} {s t : σ} {o : Outcome η ε α}
    (h : p.play answer fuel s = some (o, t)) : p.Runs K s o t := by
  induction p generalizing s t with
  | stop o' =>
      obtain ⟨rfl, rfl⟩ : o' = o ∧ s = t := by simpa [play] using h
      exact .stop _ _
  | ask c k ih => exact .ask (hK s c) (ih _ h)
  | iterate body b k ihBody ihK =>
      rw [play] at h
      have hround := fun b s o t (hp : (body b).play answer fuel s = some (o, t)) =>
        ihBody b hp
      split at h
      · simp at h
      · next c t' hplay =>
          refine .of_playRounds hround hplay (fun c' hc => ?_) (by simp) (by simp)
          obtain rfl : c = c' := by simpa using hc
          exact ihK c h
      · next e t' hplay =>
          obtain ⟨rfl, rfl⟩ : Outcome.error e = o ∧ t' = t := by simpa using h
          exact .of_playRounds hround hplay (by simp) (by simp) (by simp)
      · next e t' hplay =>
          obtain ⟨rfl, rfl⟩ : Outcome.halted e = o ∧ t' = t := by simpa using h
          exact .of_playRounds hround hplay (by simp) (by simp) (by simp)

/-- Play a program against answers that may depend on all that happened before. -/
def replay (answer : List (Event S) → (c : S.Call) → S.Answer c) (fuel : Nat)
    (p : Program S η ε α) (log : List (Event S)) :
    Option (Outcome η ε α × List (Event S)) :=
  p.play (fun log c => (answer log c, log ++ [⟨c, answer log c⟩])) fuel log

theorem Runs.of_replay (answer : List (Event S) → (c : S.Call) → S.Answer c) (fuel : Nat)
    {p : Program S η ε α} {log log' : List (Event S)} {o : Outcome η ε α}
    (h : p.replay answer fuel log = some (o, log')) : p.Runs (tracing S) log o log' :=
  .of_play (fun _ _ => rfl) h

/-- Given an answer to each call, a program that can be played to a value has a
run in which every call gets that answer. -/
theorem Runs.exists_of_replay (answer : (c : S.Call) → S.Answer c) (fuel : Nat)
    {p : Program S η ε α}
    (h : (p.replay (fun _ => answer) fuel []).any (fun r => r.1.isValue) = true) :
    ∃ a log, p.Runs (tracing S) [] (.value a) log ∧ ∀ ev ∈ log, ev.2 = answer ev.1 := by
  obtain ⟨⟨o, log⟩, hplay, hvalue⟩ := (Option.any_eq_true _ _).mp h
  have hanswers : ∀ ev ∈ log, ev.2 = answer ev.1 := by
    have hrun : p.Runs (fun log c r log' => (r, log') = (answer c, log ++ [⟨c, answer c⟩]))
        [] o log := .of_play (fun _ _ => rfl) hplay
    refine hrun.invariant (I := fun log => ∀ ev ∈ log, ev.2 = answer ev.1)
      (fun log c r log' hcall hlog ev hev => ?_) (by simp)
    obtain ⟨rfl, rfl⟩ := Prod.mk.inj hcall
    rcases List.mem_append.mp hev with hev | hev
    · exact hlog ev hev
    · rw [List.mem_singleton.mp hev]
  cases o with
  | value a => exact ⟨a, log, .of_replay _ fuel hplay, hanswers⟩
  | error e => cases hvalue
  | halted e => cases hvalue

end Program

end Cntr.CallTree
